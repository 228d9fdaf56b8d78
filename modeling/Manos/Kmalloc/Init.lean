import Manos.Kmalloc.Split

/-!
# Initialisation

`initRam` empties the bins and the bitmap and makes a single free chunk of the memory of
the heap.  On a layout whose `totalRAM` is not a multiple of eight the chunk ends before
the memory does.
-/

open ByteMem PtrChain Tiling

namespace Kmalloc

open Exec

variable {L : Layout} {X : List Chunk} {H : Heap} {s : Alloc}

/-- The only chunk of a heap that was just initialised. -/
def Layout.firstChunk (L : Layout) : Chunk where
  addr := L.heap
  size := L.heapSize
  used := none

/-- The heap that `initRam` makes of the memory `m`. -/
def Heap.initial (L : Layout) (m : ByteMem) : Heap where
  chunks := [L.firstChunk]
  lists := fun b => if b = .clean (maxBins - 1) then [L.firstChunk] else []
  lastAllocSize := 0
  data := m.fill L.heap L.totalRAM 0xfa

theorem Heap.inv_initial (L : Layout) (m : ByteMem) :
  (Heap.initial L m).Inv L []
  := by
  have hL := L.bounds
  have hmem : ∀ b c, c ∈ (Heap.initial L m).lists b ↔ b = .clean (maxBins - 1) ∧ c = L.firstChunk
      := by
    intro b c
    simp only [Heap.initial]
    split
    case isTrue h => simp [h]
    case isFalse h => simp [h]
  constructor
  case tiles => refine ⟨rfl, rfl⟩
  case sized =>
    intro c hc
    rw [List.mem_singleton.mp hc]
    simp only [Layout.firstChunk]
    omega
  case room =>
    intro c hc n hn
    rw [List.mem_singleton.mp hc] at hn
    cases hn
  case listed =>
    intro b c hc
    rw [((hmem b c).mp hc).2]
    refine ⟨List.mem_singleton_self _, rfl⟩
  case flight =>
    intro c hc
    cases hc
  case fresh => apply List.nodup_nil
  case covered =>
    intro c hc _
    right
    use .clean (maxBins - 1)
    apply (hmem _ _).mpr ⟨rfl, List.mem_singleton.mp hc⟩
  case nodup =>
    intro b
    simp only [Heap.initial]
    split
    · apply List.nodup_singleton
    · apply List.nodup_nil
  case distinct =>
    intro b b' c hb hb'
    rw [((hmem b c).mp hb).1, ((hmem b' c).mp hb').1]
  case index =>
    intro b c hc
    rw [((hmem b c).mp hc).1]
    decide
  case binned =>
    intro i _ c hc
    cases ((hmem _ c).mp hc).1
  case sorted =>
    intro i _
    simp [Heap.initial]
  case single =>
    intro i j c d hc hd
    rw [((hmem _ c).mp hc).2, ((hmem _ d).mp hd).2]

/-- The memory after `initRam`: the header is cleared, the heap is invalidated, and the
first chunk is put on its list. -/
theorem rep_initial {m m₁ m₂ : ByteMem}
    (h₁ : m₁ = (m.fill L.sdramStart L.headerSize 0).fill L.heap L.totalRAM 0xfa)
    (h₂ : Initialised m₁ m₂ L.heap L.heapSize) :
  Rep L (Heap.initial L m) [] ((m₂.store32 ((Bin.clean (maxBins - 1)).addr L) L.heap).store32
    (L.heap + 4) ((Bin.clean (maxBins - 1)).addr L))
  := by
  have hL := L.bounds
  have hheader : L.heap = L.sdramStart + L.headerSize := by
    simp only [Layout.headerSize, bitmapOffset, maxBins]
    omega
  have hb : (Bin.clean (maxBins - 1)).addr L = L.sdramStart + 1020 := by
    simp only [Bin.addr, maxBins]
  have hb4 := Bin.addr_align L (.clean (maxBins - 1))
  set B := (Bin.clean (maxBins - 1)).addr L with hB
  set m₃ := (m₂.store32 B L.heap).store32 (L.heap + 4) B with hm₃
  -- what is left of the header
  have hzero : ∀ x, L.sdramStart ≤ x → x < L.heap → (x < B ∨ B + 4 ≤ x) → m₃ x = 0 := by
    intro x hx hx' hxB
    rw [hm₃, store32_apply_of_outside (by omega), store32_apply_of_outside hxB,
      h₂.outside x (by omega), h₁, fill_apply, if_neg (by omega), fill_apply, if_pos (by omega)]
  have hword : ∀ w, w % 4 = 0 → m₃.load32 w =
      if w = L.heap + 4 then B else if w = B then L.heap else m₂.load32 w := by
    intro w hw
    rw [hm₃, load32_store32_aligned (by omega) hw (by omega),
      load32_store32_aligned hb4 hw (by omega)]
  have hzeroword : ∀ w, L.sdramStart ≤ w → w + 4 ≤ L.heap → w % 4 = 0 → w ≠ B →
      m₃.load32 w = 0 := by
    intro w hw hw' hw4 hne
    rw [load32_of_bytes (b := 0)]
    · rfl
    · intro x hx hx'
      apply hzero x (by omega) (by omega) (by omega)
  have hstart := L.start_align
  constructor
  case last => apply hzeroword L.sdramStart (by omega) (by omega) (by omega) (by omega)
  case head =>
    intro c hc
    rw [List.mem_singleton.mp hc]
    apply h₂.head.congr
    intro x hx hx'
    rw [hm₃, store32_apply_of_outside (by omega), store32_apply_of_outside (by omega)]
  case foot =>
    intro c hc
    rw [List.mem_singleton.mp hc]
    apply h₂.foot.congr
    intro x hx hx'
    rw [hm₃, store32_apply_of_outside (by omega), store32_apply_of_outside (by omega)]
  case chain =>
    intro b hbi
    have hba := Bin.addr_bounds L hbi
    have hb4' := Bin.addr_align L b
    simp only [Heap.initial]
    split
    case isTrue heq =>
      rw [heq, ← hB]
      refine ⟨?_, ?_, ?_⟩
      · rw [hword B hb4, if_neg (by omega), if_pos rfl]
        rfl
      · change m₃.load32 (L.heap + 4) = B
        rw [hword _ (by omega), if_pos rfl]
      · change m₃.load32 (L.heap + 8) = 0
        rw [hword _ (by omega), if_neg (by omega), if_neg (by omega), h₂.unlinked.2]
    case isFalse hne =>
      apply hzeroword _ (by omega) (by omega) hb4'
      intro heq
      apply hne (Bin.addr_inj L heq)
  case unlinked =>
    intro c hc
    cases hc
  case bitmap =>
    intro i hi
    rw [bitAt, hzero _ (by omega) (by omega) (by omega)]
    constructor
    · intro h
      simp at h
    · rintro ⟨c, hc, hused, -⟩
      rw [List.mem_singleton.mp hc] at hused
      apply absurd rfl hused
  case data =>
    intro x hx
    have hout : x < L.sdramStart ∨ L.heapEnd ≤ x := by
      rcases hx with hx | hx | ⟨c, hc, n, hn, -⟩
      · left
        apply hx
      · right
        apply hx
      · rw [List.mem_singleton.mp hc] at hn
        cases hn
    have hdata : (Heap.initial L m).data = m.fill L.heap L.totalRAM 0xfa := rfl
    rw [hdata, hm₃, store32_apply_of_outside (by omega), store32_apply_of_outside (by omega),
      h₂.outside x (by omega), h₁, fill_apply, fill_apply, fill_apply,
      if_neg (c := L.sdramStart ≤ x ∧ x < L.sdramStart + L.headerSize) (by omega)]

/-- Nulls written to bytes that are zero change nothing. -/
theorem store32_zero {m : ByteMem} {a : Nat} (h : ∀ x, a ≤ x → x < a + 4 → m x = 0) :
  m.store32 a 0 = m
  := by
  funext x
  by_cases hx : a ≤ x ∧ x < a + 4
  · rw [h x hx.1 hx.2, store32]
    split_ifs
    all_goals first | rfl | omega
  · apply store32_apply_of_outside
    omega

/-- The bins are already empty when `initRam` empties them. -/
theorem invalidateBins_apply {n i : Nat}
    (h : ∀ x, L.sdramStart + 4 ≤ x → x < L.sdramStart + 1028 → s.mem x = 0)
    (hi : i + n ≤ maxBins) :
  invalidateBins L.sdramStart n i s = .done () s
  := by
  have hL := L.bounds
  induction n generalizing i with
  | zero => rfl
  | succ n ih =>
      rw [maxBins] at hi
      have hd : dirtyField L.sdramStart i = L.sdramStart + 8 + 8 * i := by
        rw [dirtyField, Word32.add_of_lt (by omega)]
        omega
      have hc : cleanField L.sdramStart i = L.sdramStart + 4 + 8 * i := by
        rw [cleanField, Word32.add_of_lt (by omega)]
        omega
      have hstore : ∀ a, L.sdramStart + 4 ≤ a → a + 4 ≤ L.sdramStart + 1028 →
          storePtr a 0 s = .done () s := by
        intro a ha ha'
        rw [storePtr, modify_apply, store32_zero]
        intro x hx hx'
        apply h x (by omega) (by omega)
      rw [invalidateBins, bind_done (hstore _ (by omega) (by omega)),
        bind_done (hstore _ (by omega) (by omega))]
      apply ih
      rw [maxBins]
      omega

/-- `initRam` on an allocator that is not yet initialised. -/
theorem initRam_returns (h0 : s.glob.ram0 = 0) (hlog : ∀ x ∈ s.log, x.InRange L) :
  Returns s (initRam L) fun _ s' => Good L (Heap.initial L s.mem) [] s'
  := by
  have hL := L.bounds
  have htotal := L.totalRAM_eq
  have hheader : L.heap = L.sdramStart + L.headerSize := by
    simp only [Layout.headerSize, bitmapOffset, maxBins]
    omega
  have h27 := L.size_bits
  simp only [bitmapOffset, maxBins] at h27
  have hend4 := L.end_align
  apply Returns.get
  rw [when_pos h0]
  apply Returns.modify
  intro s₁ hs₁
  apply Returns.modify
  intro s₂ hs₂
  apply Returns.modify
  intro s₃ hs₃
  have hm₃ : s₃.mem = s.mem.fill L.sdramStart L.headerSize 0 := by
    rw [hs₃, hs₂, hs₁, kmemset_eq_fill]
  apply Returns.step (invalidateBins_apply (L := L) _ (Nat.le_refl maxBins))
  swap
  · intro x hx hx'
    rw [hm₃, fill_apply, if_pos (by omega)]
  apply Returns.modify
  intro s₄ hs₄
  apply Returns.modify
  intro s₅ hs₅
  apply Returns.modify
  intro s₆ hs₆
  have hm₆ : s₆.mem = (s.mem.fill L.sdramStart L.headerSize 0).fill L.heap L.totalRAM 0xfa := by
    rw [hs₆, hs₅, hs₄, ← hm₃, kmemset_eq_fill]
    rfl
  have hg₆ : GlobalsOf L s₆.glob := by
    rw [hs₆, hs₅, hs₄, hs₃, hs₂, hs₁]
    refine ⟨rfl, rfl, rfl, rfl⟩
  have hl₆ : s₆.log = s.log := by rw [hs₆, hs₅, hs₄, hs₃, hs₂, hs₁]
  apply Returns.bind (initChunk_returns (L := L) (a := L.heap) (by omega)
    (show L.totalRAM % 4 = 0 by omega) (by omega) (by omega) (by omega) (by omega) hg₆.high)
  rintro _ s₇ ⟨rfl, k₇, hi₇⟩
  rw [show L.totalRAM / 8 * 8 = L.heapSize from rfl] at hi₇
  have hrep := rep_initial hm₆ hi₇
  have hg₇ : GlobalsOf L s₇.glob := k₇.glob ▸ hg₆
  have hidx : maxBins - 1 < maxBins := by decide
  have hbin : (Access.bin (maxBins - 1)).InRange L := hidx
  apply Returns.step (getCleanBin_apply hg₇ hidx)
  apply returns_store L
  intro s₈ k₈ hm₈
  have hg₈ : GlobalsOf L s₈.glob := k₈.glob ▸ hg₇
  apply Returns.step (getCleanBin_apply hg₈ hidx)
  apply returns_store L
  intro s₉ k₉ hm₉
  have hm : s₉.mem = (s₇.mem.store32 ((Bin.clean (maxBins - 1)).addr L) L.heap).store32
      (L.heap + 4) ((Bin.clean (maxBins - 1)).addr L) := by
    rw [hm₉, hm₈]
    rfl
  have hgood : Good L (Heap.initial L s.mem) [] s₉ := by
    constructor
    · apply Heap.inv_initial
    · rw [k₉.glob]
      apply hg₈
    · rw [hm]
      apply hrep
    · apply k₉.log ((keeps_record hbin s₈ s₈.mem).log
        (k₈.log ((keeps_record hbin s₇ s₇.mem).log (k₇.log _))))
      rw [hl₆]
      apply hlog
  apply Returns.bind (getSize_returns hgood (c := L.firstChunk) (List.mem_singleton_self _))
  rintro _ s₁₀ ⟨rfl, -, h₁₀⟩
  refine ⟨_, _, rfl, h₁₀.inv, h₁₀.glob, h₁₀.rep, h₁₀.log⟩

/-- `initRam` on an initialised allocator does nothing. -/
theorem Good.initRam (h : Good L H X s) :
  initRam L s = .done () s
  := by
  have hL := L.bounds
  have h0 : ¬ s.glob.ram0 = 0 := by
    rw [h.glob.ram0]
    omega
  rw [Kmalloc.initRam, bind_done (get_apply s), when_neg h0]
  rfl

end Kmalloc
