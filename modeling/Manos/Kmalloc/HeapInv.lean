import Manos.Kmalloc.Heap

/-!
# The invariant of heaps

`Inv L X H` says that `H` is a heap of the layout `L` in which the chunks `X` are free and
on no list, as they are in the middle of an operation.  Every operation on heaps keeps it.
-/

open Tiling

namespace Kmalloc

namespace Heap

/-- The heap `H` is in order, and the chunks `X` are the free ones on no list. -/
structure Inv (L : Layout) (X : List Chunk) (H : Heap) : Prop where
  tiles : Tiles Chunk.addr Chunk.size L.heap L.heapEnd H.chunks
  sized : ∀ c ∈ H.chunks, 16 ≤ c.size ∧ c.size % 8 = 0
  room : ∀ c ∈ H.chunks, ∀ n ∈ c.used, n + 8 ≤ c.size
  listed : ∀ b, ∀ c ∈ H.lists b, c ∈ H.chunks ∧ c.used = none
  flight : ∀ c ∈ X, c ∈ H.chunks ∧ c.used = none ∧ ∀ b, c ∉ H.lists b
  fresh : X.Nodup
  covered : ∀ c ∈ H.chunks, c.used = none → c ∈ X ∨ ∃ b, c ∈ H.lists b
  nodup : ∀ b, (H.lists b).Nodup
  distinct : ∀ b b' c, c ∈ H.lists b → c ∈ H.lists b' → b = b'
  index : ∀ b, ∀ c ∈ H.lists b, b.index < maxBins
  binned : ∀ i, i ≠ 0 → ∀ c ∈ H.lists (.dirty i), getBinIndex c.size = i
  sorted : ∀ i, i ≠ 0 → (H.lists (.dirty i)).Pairwise fun c d =>
    Word32.toSigned c.addr < Word32.toSigned d.addr
  single : ∀ i j c d, c ∈ H.lists (.clean i) → d ∈ H.lists (.clean j) → c = d

/-- The chunks of `H` tile the heap and every free one is on exactly one list or among `X`: the part
of the invariant that says nothing about which list a chunk is on. -/
structure Sound (L : Layout) (X : List Chunk) (H : Heap) : Prop where
  tiles : Tiles Chunk.addr Chunk.size L.heap L.heapEnd H.chunks
  sized : ∀ c ∈ H.chunks, 16 ≤ c.size ∧ c.size % 8 = 0
  listed : ∀ b, ∀ c ∈ H.lists b, c ∈ H.chunks ∧ c.used = none
  flight : ∀ c ∈ X, c ∈ H.chunks ∧ c.used = none ∧ ∀ b, c ∉ H.lists b
  fresh : X.Nodup
  covered : ∀ c ∈ H.chunks, c.used = none → c ∈ X ∨ ∃ b, c ∈ H.lists b
  nodup : ∀ b, (H.lists b).Nodup
  distinct : ∀ b b' c, c ∈ H.lists b → c ∈ H.lists b' → b = b'
  index : ∀ b, ∀ c ∈ H.lists b, b.index < maxBins

/-- No clean list has a chunk. -/
def NoClean (H : Heap) : Prop := ∀ i, H.lists (.clean i) = []

theorem lists_setList (b b' : Bin) (l : List Chunk) (H : Heap) :
  (H.setList b l).lists b' = if b' = b then l else H.lists b'
  := Function.update_apply H.lists b l b'

namespace Sound

variable {L : Layout} {X : List Chunk} {H : Heap} {c d : Chunk}

/-! ### Places of chunks -/

/-- Where a chunk lies. -/
theorem place (h : Sound L X H) (hc : c ∈ H.chunks) :
  L.heap ≤ c.addr ∧ c.addr + c.size ≤ L.heapEnd ∧ 16 ≤ c.size ∧ c.size % 8 = 0
  := by
  obtain ⟨h₁, h₂⟩ := h.tiles.bounds hc
  obtain ⟨h₃, h₄⟩ := h.sized c hc
  refine ⟨h₁, h₂, h₃, h₄⟩

/-- The pieces of a tiling by multiples of eight start at the same remainder. -/
theorem align_of_tiles {lo hi : Nat} {l : List Chunk} (ht : Tiles Chunk.addr Chunk.size lo hi l)
    (hs : ∀ c ∈ l, c.size % 8 = 0) (hc : c ∈ l) :
  c.addr % 8 = lo % 8
  := by
  induction l generalizing lo with
  | nil => cases hc
  | cons d l ih =>
      obtain ⟨hd, ht⟩ := ht
      have hd8 := hs d List.mem_cons_self
      rcases List.mem_cons.mp hc with rfl | hc'
      · rw [hd]
      · have := ih ht (fun e he => hs e (List.mem_cons_of_mem _ he)) hc'
        omega

/-- The address of a chunk is four more than a multiple of eight. -/
theorem align (h : Sound L X H) (hc : c ∈ H.chunks) :
  c.addr % 8 = 4
  := by
  have hL := L.bounds
  rw [align_of_tiles h.tiles (fun d hd => (h.sized d hd).2) hc]
  omega

/-- The address of a chunk is not the null pointer. -/
theorem addr_ne_zero (h : Sound L X H) (hc : c ∈ H.chunks) :
  c.addr ≠ 0
  := by
  have := h.align hc
  omega

/-- Nor is the address at the head of a list of chunks. -/
theorem head?_ne_zero {l : List Chunk} {z : Nat} (h : Sound L X H) (hl : ∀ d ∈ l, d ∈ H.chunks)
    (hz : z ∈ (l.map Chunk.addr).head?) :
  z ≠ 0
  := by
  rw [List.head?_map, Option.mem_def, Option.map_eq_some_iff] at hz
  obtain ⟨d, hd, rfl⟩ := hz
  apply h.addr_ne_zero (hl d (List.mem_of_mem_head? hd))

/-- Different chunks are apart. -/
theorem apart (h : Sound L X H) (hc : c ∈ H.chunks) (hd : d ∈ H.chunks) (hne : c ≠ d) :
  c.addr + c.size ≤ d.addr ∨ d.addr + d.size ≤ c.addr
  := h.tiles.apart hc hd hne

/-- A chunk is known by its address. -/
theorem eq_of_addr (h : Sound L X H) (hc : c ∈ H.chunks) (hd : d ∈ H.chunks)
    (heq : c.addr = d.addr) :
  c = d
  := by
  apply h.tiles.eq_of_start _ hc hd heq
  intro e he
  have := (h.sized e he).1
  omega

/-! ### Lists -/

theorem mem_unlink {b : Bin} (h : Sound L X H) :
  d ∈ (H.unlink c).lists b ↔ d ∈ H.lists b ∧ d ≠ c
  := by
  rw [unlink, List.Nodup.mem_erase_iff (h.nodup b), and_comm]

/-- A chunk taken off its list. -/
theorem unlink {b : Bin} (h : Sound L X H) (hc : c ∈ H.lists b) :
  Sound L (c :: X) (H.unlink c)
  where
  tiles := h.tiles
  sized := h.sized
  listed := by
    intro b' d hd
    apply h.listed b' d (h.mem_unlink.mp hd).1
  flight := by
    intro d hd
    rcases List.mem_cons.mp hd with rfl | hd'
    · refine ⟨(h.listed b d hc).1, (h.listed b d hc).2, ?_⟩
      intro b' hmem
      apply (h.mem_unlink.mp hmem).2 rfl
    · obtain ⟨h₁, h₂, h₃⟩ := h.flight d hd'
      refine ⟨h₁, h₂, ?_⟩
      intro b' hmem
      apply h₃ b' (h.mem_unlink.mp hmem).1
  fresh := by
    apply List.nodup_cons.mpr
    refine ⟨?_, h.fresh⟩
    intro hX
    apply (h.flight c hX).2.2 b hc
  covered := by
    intro d hd hfree
    rcases h.covered d hd hfree with hX | ⟨b', hb'⟩
    · left
      apply List.mem_cons_of_mem _ hX
    · by_cases hdc : d = c
      · left
        rw [hdc]
        apply List.mem_cons_self
      · right
        use b'
        apply h.mem_unlink.mpr ⟨hb', hdc⟩
  nodup := by
    intro b'
    apply (h.nodup b').erase
  distinct := by
    intro b₁ b₂ d h₁ h₂
    apply h.distinct b₁ b₂ d (h.mem_unlink.mp h₁).1 (h.mem_unlink.mp h₂).1
  index := by
    intro b' d hd
    apply h.index b' d (h.mem_unlink.mp hd).1

/-- The chunks of the lists after `c` is put on the list `b`. -/
theorem mem_setList {b b' : Bin} {l : List Chunk} (hl : ∀ d, d ∈ l ↔ d = c ∨ d ∈ H.lists b) :
  d ∈ (H.setList b l).lists b' ↔ (b' = b ∧ d = c) ∨ d ∈ H.lists b'
  := by
  rw [lists_setList]
  split
  case isTrue heq => simp [heq, hl]
  case isFalse heq => simp [heq]

/-- A chunk put on a list. -/
theorem setList {b : Bin} {l : List Chunk} (h : Sound L (c :: X) H)
    (hl : ∀ d, d ∈ l ↔ d = c ∨ d ∈ H.lists b) (hnd : l.Nodup) (hb : b.index < maxBins) :
  Sound L X (H.setList b l)
  := by
  obtain ⟨hcX, hX⟩ := List.nodup_cons.mp h.fresh
  obtain ⟨hc, hfree, hoff⟩ := h.flight c List.mem_cons_self
  constructor
  case tiles => apply h.tiles
  case sized => apply h.sized
  case fresh => apply hX
  case listed =>
    intro b' d hd
    rcases (mem_setList hl).mp hd with ⟨-, rfl⟩ | hd
    · refine ⟨hc, hfree⟩
    · apply h.listed b' d hd
  case flight =>
    intro d hd
    obtain ⟨h₁, h₂, h₃⟩ := h.flight d (List.mem_cons_of_mem _ hd)
    refine ⟨h₁, h₂, ?_⟩
    intro b' hd'
    rcases (mem_setList hl).mp hd' with ⟨-, rfl⟩ | hd'
    · apply hcX hd
    · apply h₃ b' hd'
  case covered =>
    intro d hd hfree
    rcases h.covered d hd hfree with hmem' | ⟨b', hb'⟩
    · rcases List.mem_cons.mp hmem' with rfl | hdX
      · right
        use b
        apply (mem_setList hl).mpr
        left
        refine ⟨rfl, rfl⟩
      · left
        apply hdX
    · right
      use b'
      apply (mem_setList hl).mpr
      right
      apply hb'
  case nodup =>
    intro b'
    rw [lists_setList]
    split
    · apply hnd
    · apply h.nodup b'
  case distinct =>
    intro b₁ b₂ d h₁ h₂
    rcases (mem_setList hl).mp h₁ with ⟨rfl, rfl⟩ | h₁' <;>
      rcases (mem_setList hl).mp h₂ with ⟨h₂b, h₂d⟩ | h₂'
    · rw [h₂b]
    · apply absurd h₂' (hoff b₂)
    · subst h₂d
      apply absurd h₁' (hoff b₁)
    · apply h.distinct b₁ b₂ d h₁' h₂'
  case index =>
    intro b' d hd
    rcases (mem_setList hl).mp hd with ⟨rfl, -⟩ | hd
    · apply hb
    · apply h.index b' d hd

end Sound

namespace Inv

variable {L : Layout} {X : List Chunk} {H : Heap} {c d : Chunk}

/-- A heap in order is sound. -/
theorem sound (h : Inv L X H) :
  Sound L X H
  where
  tiles := h.tiles
  sized := h.sized
  listed := h.listed
  flight := h.flight
  fresh := h.fresh
  covered := h.covered
  nodup := h.nodup
  distinct := h.distinct
  index := h.index

/-! ### Places of chunks -/

/-- Where a chunk lies. -/
theorem place (h : Inv L X H) (hc : c ∈ H.chunks) :
  L.heap ≤ c.addr ∧ c.addr + c.size ≤ L.heapEnd ∧ 16 ≤ c.size ∧ c.size % 8 = 0
  := h.sound.place hc

/-- The address of a chunk is four more than a multiple of eight. -/
theorem align (h : Inv L X H) (hc : c ∈ H.chunks) :
  c.addr % 8 = 4
  := h.sound.align hc

theorem addr_ne_zero (h : Inv L X H) (hc : c ∈ H.chunks) :
  c.addr ≠ 0
  := h.sound.addr_ne_zero hc

/-- Different chunks are apart. -/
theorem apart (h : Inv L X H) (hc : c ∈ H.chunks) (hd : d ∈ H.chunks) (hne : c ≠ d) :
  c.addr + c.size ≤ d.addr ∨ d.addr + d.size ≤ c.addr
  := h.sound.apart hc hd hne

/-- A chunk is known by its address. -/
theorem eq_of_addr (h : Inv L X H) (hc : c ∈ H.chunks) (hd : d ∈ H.chunks)
    (heq : c.addr = d.addr) :
  c = d
  := h.sound.eq_of_addr hc hd heq

/-! ### Lists -/

theorem mem_unlink {b : Bin} (h : Inv L X H) :
  d ∈ (H.unlink c).lists b ↔ d ∈ H.lists b ∧ d ≠ c
  := h.sound.mem_unlink

/-- What the invariant says besides `Sound` is about the lists of clean and dirty chunks and the room
in the chunks. -/
theorem of_sound (hS : Sound L X H) (hroom : ∀ c ∈ H.chunks, ∀ n ∈ c.used, n + 8 ≤ c.size)
    (hbinned : ∀ i, i ≠ 0 → ∀ c ∈ H.lists (.dirty i), getBinIndex c.size = i)
    (hsorted : ∀ i, i ≠ 0 → (H.lists (.dirty i)).Pairwise fun c d =>
      Word32.toSigned c.addr < Word32.toSigned d.addr)
    (hsingle : ∀ i j c d, c ∈ H.lists (.clean i) → d ∈ H.lists (.clean j) → c = d) :
  Inv L X H
  := by
  constructor
  case tiles => apply hS.tiles
  case sized => apply hS.sized
  case room => apply hroom
  case listed => apply hS.listed
  case flight => apply hS.flight
  case fresh => apply hS.fresh
  case covered => apply hS.covered
  case nodup => apply hS.nodup
  case distinct => apply hS.distinct
  case index => apply hS.index
  case binned => apply hbinned
  case sorted => apply hsorted
  case single => apply hsingle

/-- A chunk taken off its list. -/
theorem unlink {b : Bin} (h : Inv L X H) (hc : c ∈ H.lists b) :
  Inv L (c :: X) (H.unlink c)
  := by
  apply of_sound (h.sound.unlink hc) h.room
  case hbinned =>
    intro i hi d hd
    apply h.binned i hi d (h.mem_unlink.mp hd).1
  case hsorted =>
    intro i hi
    apply (h.sorted i hi).sublist List.erase_sublist
  case hsingle =>
    intro i j d e hd he
    apply h.single i j d e (h.mem_unlink.mp hd).1 (h.mem_unlink.mp he).1

/-- Without its only chunk, no clean list has a chunk. -/
theorem noClean_unlink {i : Nat} (h : Inv L X H) (hc : c ∈ H.lists (.clean i)) :
  NoClean (H.unlink c)
  := by
  intro j
  apply List.eq_nil_iff_forall_not_mem.mpr
  intro d hd
  obtain ⟨hd, hne⟩ := h.mem_unlink.mp hd
  apply hne (h.single j i d c hd hc)

/-- A chunk put on a list. -/
theorem setList {b : Bin} {l : List Chunk} (h : Inv L (c :: X) H)
    (hl : ∀ d, d ∈ l ↔ d = c ∨ d ∈ H.lists b) (hnd : l.Nodup) (hb : b.index < maxBins)
    (hbin : ∀ i, i ≠ 0 → b = .dirty i → getBinIndex c.size = i)
    (hsort : ∀ i, i ≠ 0 → b = .dirty i →
      l.Pairwise fun d e => Word32.toSigned d.addr < Word32.toSigned e.addr)
    (hclean : ∀ i, b = .clean i → NoClean H) :
  Inv L X (H.setList b l)
  := by
  apply of_sound (h.sound.setList hl hnd hb) h.room
  case hbinned =>
    intro i hi d hd
    rcases (Sound.mem_setList hl).mp hd with ⟨heq, rfl⟩ | hd
    · apply hbin i hi heq.symm
    · apply h.binned i hi d hd
  case hsorted =>
    intro i hi
    rw [lists_setList]
    split
    case isTrue heq => apply hsort i hi heq.symm
    case isFalse => apply h.sorted i hi
  case hsingle =>
    intro i j d e hd he
    rcases (Sound.mem_setList hl).mp hd with ⟨hi, rfl⟩ | hd' <;>
      rcases (Sound.mem_setList hl).mp he with ⟨hj, he'⟩ | he'
    · rw [he']
    · rw [hclean i hi.symm j] at he'
      cases he'
    · rw [hclean j hj.symm i] at hd'
      cases hd'
    · apply h.single i j d e hd' he'

/-- A chunk pushed on the list of recent chunks. -/
theorem pushRecent (h : Inv L (c :: X) H) :
  Inv L X (H.push .recent c)
  := by
  apply h.setList
  · intro d
    apply List.mem_cons
  · apply List.nodup_cons.mpr
    refine ⟨(h.flight c List.mem_cons_self).2.2 _, h.nodup _⟩
  · decide
  · rintro i hi ⟨⟩
    apply absurd rfl hi
  · rintro i hi ⟨⟩
    apply absurd rfl hi
  · rintro i ⟨⟩

/-- The remainder of a split, when there is no clean chunk. -/
theorem pushRemainder (h : Inv L (c :: X) H) (hclean : NoClean H) :
  Inv L X (H.push .remainder c)
  := by
  apply h.setList
  · intro d
    apply List.mem_cons
  · apply List.nodup_cons.mpr
    refine ⟨(h.flight c List.mem_cons_self).2.2 _, h.nodup _⟩
  · decide
  · rintro i hi ⟨⟩
  · rintro i hi ⟨⟩
  · intro i hi
    apply hclean

theorem mem_insertByAddr {l : List Chunk} :
  d ∈ insertByAddr c l ↔ d = c ∨ d ∈ l
  := by
  induction l with
  | nil => simp [insertByAddr]
  | cons e l ih =>
      rw [insertByAddr]
      split
      · apply List.mem_cons
      · rw [List.mem_cons, ih, List.mem_cons]
        tauto

theorem nodup_insertByAddr {l : List Chunk} (hc : c ∉ l) (hl : l.Nodup) :
  (insertByAddr c l).Nodup
  := by
  induction l with
  | nil => simp [insertByAddr]
  | cons e l ih =>
      rw [insertByAddr]
      split
      · apply List.nodup_cons.mpr ⟨hc, hl⟩
      · obtain ⟨he, hl⟩ := List.nodup_cons.mp hl
        apply List.nodup_cons.mpr
        refine ⟨?_, ih (fun h => hc (List.mem_cons_of_mem _ h)) hl⟩
        intro hmem
        rcases mem_insertByAddr.mp hmem with rfl | hmem
        · apply hc List.mem_cons_self
        · apply he hmem

theorem pairwise_insertByAddr {l : List Chunk}
    (hl : l.Pairwise fun d e => Word32.toSigned d.addr < Word32.toSigned e.addr)
    (hc : ∀ d ∈ l, Word32.toSigned d.addr ≠ Word32.toSigned c.addr) :
  (insertByAddr c l).Pairwise fun d e => Word32.toSigned d.addr < Word32.toSigned e.addr
  := by
  induction l with
  | nil => simp [insertByAddr]
  | cons e l ih =>
      obtain ⟨he, hl⟩ := List.pairwise_cons.mp hl
      rw [insertByAddr]
      split
      case isTrue hlt =>
        apply List.pairwise_cons.mpr
        refine ⟨?_, List.pairwise_cons.mpr ⟨he, hl⟩⟩
        intro d hd
        rcases List.mem_cons.mp hd with rfl | hd
        · apply hlt
        · apply Int.lt_trans hlt (he d hd)
      case isFalse hlt =>
        apply List.pairwise_cons.mpr
        refine ⟨?_, ih hl fun d hd => hc d (List.mem_cons_of_mem _ hd)⟩
        intro d hd
        rcases mem_insertByAddr.mp hd with rfl | hd
        · have := hc e List.mem_cons_self
          omega
        · apply he d hd

/-- A chunk put on the dirty list of its size. -/
theorem binDirty (h : Inv L (c :: X) H) :
  Inv L X (H.binDirty c)
  := by
  obtain ⟨hc, hfree, hoff⟩ := h.flight c List.mem_cons_self
  have hbounds := getBinIndex_bounds (h.sized c hc).1
  apply h.setList
  · intro d
    apply mem_insertByAddr
  · apply nodup_insertByAddr (hoff _) (h.nodup _)
  · change getBinIndex c.size < maxBins
    rw [maxBins]
    omega
  · rintro i hi ⟨⟩
    rfl
  · rintro i hi ⟨⟩
    apply pairwise_insertByAddr (h.sorted _ hi)
    intro d hd heq
    have hd' := (h.listed _ d hd).1
    have hL := L.bounds
    have h₁ := h.place hc
    have h₂ := h.place hd'
    have haddr : d.addr = c.addr := by
      rw [Word32.toSigned, Word32.toSigned] at heq
      split at heq <;> split at heq <;> omega
    apply hoff _ (h.eq_of_addr hd' hc haddr ▸ hd)
  · rintro i ⟨⟩

/-! ### Replacing a chunk -/

/-- A chunk on no list replaced by pieces that tile it: the free pieces are on no list. -/
theorem replace {X' : List Chunk} (h : Inv L X H) (cs : List Chunk) (H' : Heap)
    (hchunks : H'.chunks = replace c cs H.chunks) (hlists : H'.lists = H.lists)
    (hc : c ∈ H.chunks) (hoff : ∀ b, c ∉ H.lists b)
    (htiles : Tiles Chunk.addr Chunk.size c.addr (c.addr + c.size) cs)
    (hsized : ∀ d ∈ cs, 16 ≤ d.size ∧ d.size % 8 = 0)
    (hroom : ∀ d ∈ cs, ∀ n ∈ d.used, n + 8 ≤ d.size) (hX' : X'.Nodup)
    (hX : ∀ d, d ∈ X' ↔ (d ∈ X ∧ d ≠ c) ∨ (d ∈ cs ∧ d.used = none)) :
  Inv L X' H'
  := by
  have hmem : ∀ d, d ∈ H'.chunks ↔ (d ∈ H.chunks ∧ d ≠ c) ∨ d ∈ cs := by
    intro d
    rw [hchunks, mem_replace]
    simp [hc]
  -- a piece of `c` is on no list, for a listed chunk is apart from `c`
  have hpiece : ∀ d ∈ cs, ∀ b, d ∉ H.lists b := by
    intro d hd b hb
    obtain ⟨h₁, h₂⟩ := htiles.bounds hd
    have h₃ := hsized d hd
    have hdH := (h.listed b d hb).1
    have hne : d ≠ c := by
      rintro rfl
      apply hoff b hb
    have := h.apart hdH hc hne
    omega
  constructor
  case tiles =>
    rw [hchunks]
    apply h.tiles.replace htiles
  case sized =>
    intro d hd
    rcases (hmem d).mp hd with ⟨hd, -⟩ | hd
    · apply h.sized d hd
    · apply hsized d hd
  case room =>
    intro d hd
    rcases (hmem d).mp hd with ⟨hd, -⟩ | hd
    · apply h.room d hd
    · apply hroom d hd
  case listed =>
    intro b d hd
    rw [hlists] at hd
    obtain ⟨h₁, h₂⟩ := h.listed b d hd
    refine ⟨(hmem d).mpr (.inl ⟨h₁, ?_⟩), h₂⟩
    rintro rfl
    apply hoff b hd
  case flight =>
    intro d hd
    rw [hlists]
    rcases (hX d).mp hd with ⟨hd, hne⟩ | ⟨hd, hfree⟩
    · obtain ⟨h₁, h₂, h₃⟩ := h.flight d hd
      refine ⟨(hmem d).mpr (.inl ⟨h₁, hne⟩), h₂, h₃⟩
    · refine ⟨(hmem d).mpr (.inr hd), hfree, hpiece d hd⟩
  case fresh => apply hX'
  case covered =>
    intro d hd hfree
    rw [hlists]
    rcases (hmem d).mp hd with ⟨hd, hne⟩ | hd
    · rcases h.covered d hd hfree with hdX | hb
      · left
        apply (hX d).mpr (.inl ⟨hdX, hne⟩)
      · right
        apply hb
    · left
      apply (hX d).mpr (.inr ⟨hd, hfree⟩)
  case nodup =>
    rw [hlists]
    apply h.nodup
  case distinct =>
    rw [hlists]
    apply h.distinct
  case index =>
    rw [hlists]
    apply h.index
  case binned =>
    rw [hlists]
    apply h.binned
  case sorted =>
    rw [hlists]
    apply h.sorted
  case single =>
    rw [hlists]
    apply h.single

/-- A free chunk on no list cut in two. -/
theorem split {size : Nat} (h : Inv L (c :: X) H) (hmin : 16 ≤ size) (h8 : size % 8 = 0)
    (hle : size + 16 ≤ c.size) :
  Inv L (c.front size :: c.rest size :: X) (H.split c size)
  := by
  obtain ⟨hc, hfree, hoff⟩ := h.flight c List.mem_cons_self
  obtain ⟨hcX, hX⟩ := List.nodup_cons.mp h.fresh
  have hsize := h.sized c hc
  have hX_apart : ∀ d ∈ X, d.addr + d.size ≤ c.addr ∨ c.addr + c.size ≤ d.addr := by
    intro d hd
    apply h.apart (h.flight d (List.mem_cons_of_mem _ hd)).1 hc
    rintro rfl
    apply hcX hd
  have hX_size : ∀ d ∈ X, 16 ≤ d.size := by
    intro d hd
    apply (h.sized d (h.flight d (List.mem_cons_of_mem _ hd)).1).1
  apply h.replace [c.front size, c.rest size] (H.split c size) rfl rfl hc hoff
  · refine ⟨rfl, rfl, ?_⟩
    change c.addr + size + (c.size - size) = c.addr + c.size
    omega
  · intro d hd
    simp only [List.mem_cons, List.not_mem_nil, or_false] at hd
    rcases hd with rfl | rfl
    · refine ⟨hmin, h8⟩
    · simp only [Chunk.rest]
      omega
  · intro d hd n hn
    simp only [List.mem_cons, List.not_mem_nil, or_false] at hd
    rcases hd with rfl | rfl
    · cases hn
    · cases hn
  · apply List.nodup_cons.mpr
    constructor
    · intro hmem
      rcases List.mem_cons.mp hmem with heq | hmem
      · have : c.addr = c.addr + size := congrArg Chunk.addr heq
        omega
      · have h₁ := hX_apart _ hmem
        simp only [Chunk.front] at h₁
        omega
    · apply List.nodup_cons.mpr
      refine ⟨?_, hX⟩
      intro hmem
      have h₁ := hX_apart _ hmem
      have h₂ := hX_size _ hmem
      simp only [Chunk.rest] at h₁ h₂
      omega
  · intro d
    simp only [List.mem_cons, List.not_mem_nil, or_false]
    constructor
    · rintro (rfl | rfl | hd)
      · right
        refine ⟨.inl rfl, rfl⟩
      · right
        refine ⟨.inr rfl, rfl⟩
      · left
        refine ⟨.inr hd, ?_⟩
        rintro rfl
        apply hcX hd
    · rintro (⟨rfl | hd, hne⟩ | ⟨hd | hd, -⟩)
      · apply absurd rfl hne
      · right
        right
        apply hd
      · left
        apply hd
      · right
        left
        apply hd

/-- A free chunk on no list given out as a block that has room in it. -/
theorem claim {n : Nat} (h : Inv L (c :: X) H) (hn : n + 8 ≤ c.size) :
  Inv L X (H.claim c n)
  := by
  obtain ⟨hc, hfree, hoff⟩ := h.flight c List.mem_cons_self
  obtain ⟨hcX, hX⟩ := List.nodup_cons.mp h.fresh
  apply h.replace [c.claimed n] (H.claim c n) rfl rfl hc hoff ⟨rfl, rfl⟩
  · intro d hd
    rw [List.mem_singleton.mp hd]
    apply h.sized c hc
  · intro d hd m hm
    rw [List.mem_singleton.mp hd] at hm ⊢
    cases hm
    apply hn
  · apply hX
  · intro d
    rw [List.mem_singleton, List.mem_cons]
    constructor
    · intro hd
      left
      refine ⟨.inr hd, ?_⟩
      rintro rfl
      apply hcX hd
    · rintro (⟨rfl | hd, hne⟩ | ⟨rfl, hd⟩)
      · apply absurd rfl hne
      · apply hd
      · cases hd

/-- The chunk of a block taken back. -/
theorem release {n : Nat} (h : Inv L X H) (hc : c ∈ H.chunks) (hn : c.used = some n) :
  Inv L (c.freed :: X) (H.release c)
  := by
  have hX : ∀ d ∈ X, d ≠ c ∧ d ≠ c.freed := by
    intro d hd
    obtain ⟨h₁, h₂, -⟩ := h.flight d hd
    have hne : d ≠ c := by
      rintro rfl
      rw [hn] at h₂
      cases h₂
    refine ⟨hne, ?_⟩
    rintro rfl
    apply hne (h.eq_of_addr h₁ hc rfl)
  apply h.replace [c.freed] (H.release c) rfl rfl hc _ ⟨rfl, rfl⟩
  · intro d hd
    rw [List.mem_singleton.mp hd]
    apply h.sized c hc
  · intro d hd m hm
    rw [List.mem_singleton.mp hd] at hm
    cases hm
  · apply List.nodup_cons.mpr
    refine ⟨?_, h.fresh⟩
    intro hmem
    apply (hX _ hmem).2 rfl
  · intro d
    rw [List.mem_singleton, List.mem_cons]
    constructor
    · rintro (rfl | hd)
      · right
        refine ⟨rfl, rfl⟩
      · left
        refine ⟨hd, (hX d hd).1⟩
    · rintro (⟨hd, -⟩ | ⟨hd, -⟩)
      · right
        apply hd
      · left
        apply hd
  · intro b hb
    have := (h.listed b c hb).2
    rw [hn] at this
    cases this

end Inv

end Heap

end Kmalloc
