import Manos.Kmalloc.Tags

/-!
# The bitmap

`checkBitmap`, `setBitmap` and `clearBitmap` on an initialised allocator, for addresses
whose bit is inside the bitmap.
-/

open ByteMem PtrChain Tiling

namespace Kmalloc

open Exec

variable {L : Layout} {X : List Chunk} {H : Heap} {s : Alloc} {addr : Nat}

/-- An address in the heap has its bit inside the bitmap. -/
structure Layout.Mapped (L : Layout) (addr : Nat) : Prop where
  low : L.heap ≤ addr
  high : addr < L.heapEnd

theorem Layout.Mapped.slot_lt (h : L.Mapped addr) :
  L.slot addr < 8 * L.bitmapSize
  := by
  have hL := L.bounds
  obtain ⟨hlow, hhigh⟩ := h
  rw [Layout.slot]
  omega

theorem getAddrBitmapOffset_eq (h : L.Mapped addr) :
  getAddrBitmapOffset L.heap addr = L.slot addr
  := by
  have hL := L.bounds
  obtain ⟨hlow, hhigh⟩ := h
  rw [getAddrBitmapOffset, Word32.sub_of_le hlow (by omega)]
  rfl

theorem bitmapAddr_eq {i : Nat} (hi : i < L.bitmapSize) :
  bitmapAddr L.sdramStart i = L.sdramStart + 1028 + i
  := by
  have hL := L.bounds
  simp only [bitmapAddr, bitmapOffset, maxBins]
  rw [Word32.add_of_lt (by omega)]
  omega

theorem getAddrByte_eq (hg : GlobalsOf L s.glob) (h : L.Mapped addr) :
  getAddrByte s.glob.heap addr = L.slot addr / 8
  := by
  rw [hg.heap, getAddrByte, getAddrBitmapOffset_eq h]
  rfl

theorem getAddrBit_eq (hg : GlobalsOf L s.glob) (h : L.Mapped addr) :
  getAddrBit s.glob.heap addr = 7 - L.slot addr % 8
  := by
  rw [hg.heap, getAddrBit, getAddrBitmapOffset_eq h]
  rfl

/-- Looking up the bitmap. -/
theorem checkBitmap_apply (hg : GlobalsOf L s.glob) (h : L.Mapped addr) :
  checkBitmap addr s = .done (bitAt L s.mem (L.slot addr))
    { s with log := .bitmap (L.slot addr / 8) :: s.log }
  := by
  have hslot := h.slot_lt
  have hbyte := getAddrByte_eq hg h
  have hbit := getAddrBit_eq hg h
  simp only [checkBitmap, bind_apply, get_apply, record, modify_apply, pure_apply, hbyte, hbit,
    hg.header]
  rw [bitmapAddr_eq (by omega), bitAt]

theorem checkBitmap_returns (hg : GlobalsOf L s.glob) (h : L.Mapped addr) :
  Returns s (checkBitmap addr) fun b s' =>
    b = bitAt L s.mem (L.slot addr) ∧ s'.mem = s.mem ∧ Keeps L s s'
  := by
  refine ⟨_, _, checkBitmap_apply hg h, rfl, rfl, ?_⟩
  apply keeps_record
  have := h.slot_lt
  simp only [Access.InRange]
  omega

/-- What `setBitmap` and `clearBitmap` leave. -/
theorem updateBitmap_apply (f : BitVec 8 → BitVec 8 → BitVec 8) (hg : GlobalsOf L s.glob)
    (h : L.Mapped addr) :
  updateBitmap addr f s = .done ()
    { s with
      mem := s.mem.write (L.sdramStart + 1028 + L.slot addr / 8)
        (f (s.mem (L.sdramStart + 1028 + L.slot addr / 8)) (1#8 <<< (7 - L.slot addr % 8)))
      log := .bitmap (L.slot addr / 8) :: s.log }
  := by
  have hslot := h.slot_lt
  have hbyte := getAddrByte_eq hg h
  have hbit := getAddrBit_eq hg h
  simp only [updateBitmap, bind_apply, get_apply, record, modify_apply, hbyte, hbit, hg.header]
  rw [bitmapAddr_eq (by omega)]

theorem updateBitmap_returns (f : BitVec 8 → BitVec 8 → BitVec 8) (hg : GlobalsOf L s.glob)
    (h : L.Mapped addr) :
  Returns s (updateBitmap addr f) fun _ s' =>
    s'.mem = s.mem.write (L.sdramStart + 1028 + L.slot addr / 8)
      (f (s.mem (L.sdramStart + 1028 + L.slot addr / 8)) (1#8 <<< (7 - L.slot addr % 8)))
      ∧ Keeps L s s'
  := by
  refine ⟨_, _, updateBitmap_apply f hg h, rfl, ?_⟩
  apply keeps_record
  have := h.slot_lt
  simp only [Access.InRange]
  omega

theorem getLsbD_shiftLeft_one {i j : Nat} (hi : i < 8) :
  (1#8 <<< j).getLsbD i = decide (i = j)
  := by
  rw [BitVec.getLsbD_shiftLeft, BitVec.getLsbD_one]
  by_cases hij : i = j
  · subst hij
    simp [hi]
  · by_cases hlt : i < j
    · simp [hlt, hij]
    · have : ¬ (i - j = 0) := by omega
      simp [hlt, hij, this]

/-- The bits after a bit of the bitmap is set. -/
theorem bitAt_set (m : ByteMem) (i k : Nat) :
  bitAt L (m.write (L.sdramStart + 1028 + k / 8)
    (m (L.sdramStart + 1028 + k / 8) ||| 1#8 <<< (7 - k % 8))) i
      = (bitAt L m i || decide (i = k))
  := by
  rw [bitAt, bitAt, write_apply]
  split
  case isTrue heq =>
    have hdiv : i / 8 = k / 8 := by omega
    rw [BitVec.getLsbD_or, getLsbD_shiftLeft_one (by omega), hdiv]
    congr 1
    apply decide_eq_decide.mpr
    omega
  case isFalse hne =>
    have hik : i ≠ k := by
      rintro rfl
      apply hne rfl
    simp [hik]

/-- The bits after a bit of the bitmap is cleared. -/
theorem bitAt_clear (m : ByteMem) (i k : Nat) :
  bitAt L (m.write (L.sdramStart + 1028 + k / 8)
    (m (L.sdramStart + 1028 + k / 8) &&& ~~~(1#8 <<< (7 - k % 8)))) i
      = (bitAt L m i && !decide (i = k))
  := by
  rw [bitAt, bitAt, write_apply]
  split
  case isTrue heq =>
    have hdiv : i / 8 = k / 8 := by omega
    have hlt : 7 - i % 8 < 8 := by omega
    rw [BitVec.getLsbD_and, BitVec.getLsbD_not, getLsbD_shiftLeft_one hlt, hdiv]
    simp only [hlt, decide_true, Bool.true_and]
    congr 2
    apply decide_eq_decide.mpr
    omega
  case isFalse hne =>
    have hik : i ≠ k := by
      rintro rfl
      apply hne rfl
    simp [hik]

/-- A chunk has its bit inside the bitmap. -/
theorem Heap.Sound.mapped {c : Chunk} (h : H.Sound L X) (hc : c ∈ H.chunks) :
  L.Mapped (c.addr + 4)
  := by
  have hpc := h.place hc
  constructor
  · omega
  · omega

/-- The bit of a chunk says whether it is allocated. -/
theorem Good.bitAt_chunk {c : Chunk} (h : Good L H X s) (hc : c ∈ H.chunks) :
  bitAt L s.mem (L.slot (c.addr + 4)) = c.used.isSome
  := by
  have hiff := h.rep.bitmap _ (h.inv.sound.slot_lt hc)
  cases hused : c.used with
  | some n =>
      apply hiff.mpr
      refine ⟨c, hc, ?_, rfl⟩
      rw [hused]
      apply Option.some_ne_none
  | none =>
      apply Bool.eq_false_iff.mpr
      intro hbit
      obtain ⟨d, hd, hd', hslot⟩ := hiff.mp hbit
      rw [h.inv.sound.slot_inj hd hc hslot] at hd'
      apply hd' hused

end Kmalloc
