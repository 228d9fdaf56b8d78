import Manos.Kmalloc.Heap

/-!
# The order of the bins

Larger chunks do not always have later bins.  The bins of the sizes from `MAX_FAST_BIN` on start
again at the first one, and they do so once more whenever the product in `rangeBinIndex` exceeds
a word.
-/

namespace Kmalloc

variable {s t : Nat}

/-! ### Laps of the bins -/

/-- How often the bins have started again before the size `sz` -/
def lap (sz : Nat) : Nat := (maxRangeBins - 1) * (sz - minAllocBytes) / 2 ^ 32

/-- How far the size `sz` is in its lap, where a byte counts `MAX_RANGE_BINS - 1` -/
def way (sz : Nat) : Nat := (maxRangeBins - 1) * (sz - minAllocBytes) % 2 ^ 32

/-- The part of a lap that has one bin -/
def binWidth : Nat := maxRangeBin - minAllocBytes

/-- Fast sizes are in order.  A range size comes after a fast one if it is as many bins into its
lap, and after another range size if they are in the same lap or it is not fewer bins into its
own. -/
def InBinOrder (s t : Nat) : Prop :=
  t < maxFastBin
    ∨ (s < maxFastBin ∧ (s - minAllocBytes) / dwordBytes * binWidth ≤ way t)
    ∨ (maxFastBin ≤ s ∧ (lap s = lap t ∨ way s / binWidth ≤ way t / binWidth))

instance (s t : Nat) : Decidable (InBinOrder s t) := inferInstanceAs (Decidable (_ ∨ _))

/-- The sizes `s` and `t` have bins in this order, and a clean chunk of the size `t` in its bin is
on a list that is searched for a chunk of the size `s`. -/
structure BinsOrdered (s t : Nat) : Prop where
  low : 1 ≤ getBinIndex s
  mono : getBinIndex s ≤ getBinIndex t
  high : getBinIndex t ≤ 127
  searched : ∀ (H : Heap), ∀ c ∈ H.lists (.clean (getBinIndex c.size)), c.size = t →
    ∃ b ∈ Heap.cleanBins s, c ∈ H.lists b

/-! ### The bins of sizes -/

/-- The bin of a fast size. -/
theorem getBinIndex_fast (hmin : minAllocBytes ≤ s) (hs : s < maxFastBin)
    (hpad : s % dwordBytes = 0) :
  getBinIndex s = 1 + (s - minAllocBytes) / dwordBytes
  := by
  have hlt : s < 2 ^ 32 := Nat.lt_trans hs (by decide)
  rw [getBinIndex, if_pos ⟨hs, hpad⟩, fastBinIndex, Word32.sub_of_le hmin hlt, Word32.add_of_lt]
  rw [dwordBytes]
  omega

theorem way_lt (sz : Nat) :
  way sz < 2 ^ 32
  := Nat.mod_lt _ (by decide)

/-- The bin of a range size. -/
theorem getBinIndex_range (hs : maxFastBin ≤ s) (hlt : s < 2 ^ 32) :
  getBinIndex s = 1 + way s / binWidth
  := by
  have hmin : minAllocBytes ≤ s := Nat.le_trans (by decide) hs
  have hnot : ¬ isFastBinSize s := fun hfast => Nat.not_lt.mpr hs hfast.1
  have hrange : rangeBinIndex s = way s / binWidth := by
    rw [rangeBinIndex, Word32.sub_of_le hmin hlt]
    rfl
  have hle : way s / binWidth ≤ way s := Nat.div_le_self _ _
  have hwidth : way s / binWidth < 65 := by
    have hway := way_lt s
    rw [Nat.div_lt_iff_lt_mul (by decide)]
    exact Nat.lt_of_lt_of_le hway (by decide)
  rw [getBinIndex, if_neg hnot, hrange, Word32.add_of_lt]
  omega

/-- In a lap the way goes on with the size. -/
theorem way_le_of_lap_eq (hst : s ≤ t) (hlap : lap s = lap t) :
  way s ≤ way t
  := by
  have hmul : (maxRangeBins - 1) * (s - minAllocBytes) ≤ (maxRangeBins - 1) * (t - minAllocBytes) :=
    Nat.mul_le_mul_left _ (Nat.sub_le_sub_right hst _)
  have hs := Nat.div_add_mod ((maxRangeBins - 1) * (s - minAllocBytes)) (2 ^ 32)
  have ht := Nat.div_add_mod ((maxRangeBins - 1) * (t - minAllocBytes)) (2 ^ 32)
  rw [lap, lap] at hlap
  rw [hlap] at hs
  rw [way, way]
  omega

/-- The bins of two sizes are in order exactly if the sizes are. -/
theorem getBinIndex_le_iff (hmin : minAllocBytes ≤ s) (hst : s ≤ t) (ht : t < 2 ^ 32)
    (hs8 : s % dwordBytes = 0) (ht8 : t % dwordBytes = 0) :
  getBinIndex s ≤ getBinIndex t ↔ InBinOrder s t
  := by
  by_cases htfast : t < maxFastBin
  · have hsfast := Nat.lt_of_le_of_lt hst htfast
    rw [getBinIndex_fast hmin hsfast hs8, getBinIndex_fast (Nat.le_trans hmin hst) htfast ht8]
    refine iff_of_true ?_ (.inl htfast)
    exact Nat.add_le_add_left (Nat.div_le_div_right (Nat.sub_le_sub_right hst _)) 1
  · have htrange := Nat.not_lt.mp htfast
    rw [InBinOrder, or_iff_right htfast, getBinIndex_range htrange ht]
    by_cases hsfast : s < maxFastBin
    · rw [getBinIndex_fast hmin hsfast hs8, Nat.add_le_add_iff_left,
        Nat.le_div_iff_mul_le (by decide)]
      constructor
      · exact fun hle => .inl ⟨hsfast, hle⟩
      · rintro (h | h)
        · exact h.2
        · exact absurd hsfast (Nat.not_lt.mpr h.1)
    · have hsrange := Nat.not_lt.mp hsfast
      rw [getBinIndex_range hsrange (Nat.lt_of_le_of_lt hst ht), Nat.add_le_add_iff_left]
      constructor
      · exact fun hle => .inr ⟨hsrange, .inr hle⟩
      · rintro (h | ⟨-, hlap | hle⟩)
        · exact absurd h.1 hsfast
        · exact Nat.div_le_div_right (way_le_of_lap_eq hst hlap)
        · exact hle

/-- All clean lists from a bin on are searched. -/
theorem mem_cleanBins {i : Nat} (hle : getBinIndex s ≤ i) (hi : i < maxBins) :
  .clean i ∈ Heap.cleanBins s
  := by
  simp only [Heap.cleanBins, List.mem_cons, List.mem_map, List.mem_range'_1, Bin.clean.injEq]
  right
  rcases Nat.eq_or_lt_of_le hle with rfl | hlt
  · exact .inl rfl
  · refine .inr ⟨i, ⟨hlt, ?_⟩, rfl⟩
    omega

/--
The bins of sizes up to that of the heap of the K70 are in order, and the searches visit the chunks
of the larger size, exactly if the sizes are ordered by their laps and ways.
-/
theorem binsOrdered_iff (hmin : 16 ≤ s) (hst : s ≤ t) (ht : t ≤ k70.heapSize) (hs8 : s % 8 = 0)
    (ht8 : t % 8 = 0) :
  BinsOrdered s t ↔ InBinOrder s t
  := by
  have hlt : t < 2 ^ 32 := Nat.lt_of_le_of_lt ht (by decide)
  have hsbounds := getBinIndex_bounds hmin
  have htbounds := getBinIndex_bounds (Nat.le_trans hmin hst)
  rw [← getBinIndex_le_iff hmin hst hlt hs8 ht8]
  constructor
  · exact BinsOrdered.mono
  · intro hle
    constructor
    case low => exact hsbounds.1
    case mono => exact hle
    case high => omega
    case searched =>
      rintro H c hc rfl
      refine ⟨_, mem_cleanBins hle ?_, hc⟩
      rw [maxBins]
      omega

theorem binsOrdered_iff_small :
  BinsOrdered 24 504 ↔ InBinOrder 24 504
  := binsOrdered_iff (by decide) (by decide) (by decide) (by decide) (by decide)

/-- The first range size has the first bin. -/
theorem not_binsOrdered :
  ¬ ∀ s t : Nat, 16 ≤ s → s ≤ t → t ≤ k70.heapSize → s % 8 = 0 → t % 8 = 0 → BinsOrdered s t
  := by
  intro hclaim
  have hmono := (hclaim 504 512 (by decide) (by decide) (by decide) (by decide) (by decide)).mono
  revert hmono
  decide

/-- After a lap the bins start again: this size has the bin of 512 bytes. -/
example : getBinIndex 34087064 = 1 ∧ getBinIndex 34087056 = 65 := by decide

end Kmalloc
