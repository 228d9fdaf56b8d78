import Manos.Kmalloc.Run
import Manos.Lib.Objects

/-!
# The bits of the bitmap

Addresses that are at least `MIN_ALLOC_BYTES` apart have different bits, so the bit of a chunk is
not touched when another one is allocated or freed, and the loop of `__kmalloc` that looks for
allocated addresses along a chunk does not meet it.
-/

open ByteMem Tiling Run

namespace Kmalloc

open Exec

variable {L : Layout} {X : List Chunk} {H : Heap} {s : Alloc} {a b n : Nat} {c d : Chunk}

/-! ### Addresses -/

/-- The address is in the memory from `heap` on, `totalRAM` bytes of it. -/
structure Layout.Inside (L : Layout) (addr : Nat) : Prop where
  low : L.heap ≤ addr
  high : addr < L.heap + L.totalRAM

/-- The addresses are at least `MIN_ALLOC_BYTES` apart. -/
def Apart (a b : Nat) : Prop := a + minAllocBytes ≤ b ∨ b + minAllocBytes ≤ a

theorem Layout.Mapped.inside (h : L.Mapped a) :
  L.Inside a
  := by
  have hL := L.bounds
  have htotal := L.totalRAM_eq
  obtain ⟨hlow, hhigh⟩ := h
  refine ⟨hlow, ?_⟩
  omega

/-- The number of the bit for an address. -/
theorem Layout.Inside.offset_eq (h : L.Inside a) :
  getAddrBitmapOffset L.heap a = L.slot a
  := by
  have hL := L.bounds
  have htotal := L.totalRAM_eq
  obtain ⟨hlow, hhigh⟩ := h
  rw [getAddrBitmapOffset, Word32.sub_of_le hlow (by omega)]
  rfl

theorem Layout.Inside.byte_lt (h : L.Inside a) :
  getAddrByte L.heap a < L.bitmapSize
  := by
  have hL := L.bounds
  have htotal := L.totalRAM_eq
  have hcovers := L.bitmap_covers
  have hoff := h.offset_eq
  obtain ⟨hlow, hhigh⟩ := h
  rw [bitmapOffset, maxBins] at hcovers
  rw [getAddrByte, hoff, Layout.slot, dwordBytes]
  omega

theorem Apart.slot_ne (h : Apart a b) (ha : L.heap ≤ a) (hb : L.heap ≤ b) :
  L.slot a ≠ L.slot b
  := by
  rw [Apart, minAllocBytes] at h
  rw [Layout.slot, Layout.slot]
  omega

/-- The byte and the bit for an address determine the number of the bit. -/
theorem offset_eq_of_byte_bit {heap : Nat} (hbyte : getAddrByte heap a = getAddrByte heap b)
    (hbit : getAddrBit heap a = getAddrBit heap b) :
  getAddrBitmapOffset heap a = getAddrBitmapOffset heap b
  := by
  rw [getAddrByte, getAddrByte, dwordBytes] at hbyte
  rw [getAddrBit, getAddrBit, dwordBytes] at hbit
  omega

/-- The places of addresses that are apart differ, and they are in the bitmap. -/
structure PlacesDiffer (L : Layout) (a b : Nat) : Prop where
  ne : (getAddrByte L.heap a, getAddrBit L.heap a) ≠ (getAddrByte L.heap b, getAddrBit L.heap b)
  left : getAddrByte L.heap a < L.bitmapSize
  right : getAddrByte L.heap b < L.bitmapSize

theorem Apart.placesDiffer (h : Apart a b) (ha : L.Inside a) (hb : L.Inside b) :
  PlacesDiffer L a b
  := by
  refine ⟨?_, ha.byte_lt, hb.byte_lt⟩
  intro heq
  obtain ⟨hbyte, hbit⟩ := Prod.mk.inj heq
  have hoff := offset_eq_of_byte_bit hbyte hbit
  rw [ha.offset_eq, hb.offset_eq] at hoff
  exact h.slot_ne ha.low hb.low hoff

/-! ### Addresses that are looked up -/

/-- The addresses from `iter` to `stop` that the loop of `__kmalloc` looks up, within a bound. -/
def probes : Nat → Nat → Nat → List Nat
  | 0, _, _ => []
  | n + 1, iter, stop =>
    if iter < stop then iter :: probes n (Word32.add iter minAllocBytes) stop else []

/-- Look the addresses up one after another, up to the first one whose bit is set. -/
def lookUp : List Nat → M Unit
  | [] => pure ()
  | a :: l => do
    let set ← checkBitmap a
    Exec.assert (set = false) "CORRUPT REGION DETECTED! DOUBLE ALLOCATION ERROR"
    lookUp l

/-- The loop looks these addresses up, and no others. -/
theorem probeBitmap_eq_lookUp {iter stop : Nat} (hn : stop ≤ iter + 16 * n)
    (hstop : stop + 16 ≤ 2 ^ 32) :
  probeBitmap (n + 1) iter stop = lookUp (probes (n + 1) iter stop)
  := by
  induction n generalizing iter with
  | zero =>
      rw [probeBitmap, probes, if_neg (by omega), if_neg (by omega)]
      rfl
  | succ n ih =>
      rw [probeBitmap, probes]
      split_ifs with hlt
      · have hnext : Word32.add iter minAllocBytes = iter + 16 := by
          rw [minAllocBytes, Word32.add_of_lt (by omega)]
        rw [hnext, ih (by omega), lookUp]
      · rfl

/-- The loop looks up addresses below its end, at a distance of multiples of eight. -/
theorem mem_probes {iter stop : Nat} (h : a ∈ probes n iter stop) (hstop : stop + 16 ≤ 2 ^ 32) :
  iter ≤ a ∧ a < stop ∧ a % 8 = iter % 8
  := by
  induction n generalizing iter with
  | zero => cases h
  | succ n ih =>
      rw [probes] at h
      split_ifs at h with hlt
      · rw [minAllocBytes, Word32.add_of_lt (by omega)] at h
        rcases List.mem_cons.mp h with rfl | h
        · exact ⟨Nat.le_refl _, hlt, rfl⟩
        · obtain ⟨hlow, hhigh, hmod⟩ := ih h
          omega
      · cases h

/-- The address is the payload of the chunk, or it is looked up along the chunk when a block of `n`
bytes is allocated in it. -/
def Chunk.LooksUp (c : Chunk) (a : Nat) : Prop :=
  a = c.addr + 4 ∨ ∃ n < 2 ^ 32, chunkSizeFor n ≤ c.size ∧
    a ∈ probes (2 ^ 28 + 1) (c.addr + 4) (Word32.add (c.addr + 4) n)

/-- What is looked up along a chunk is in front of its footer. -/
theorem Heap.Sound.looksUp (h : H.Sound L X) (hc : c ∈ H.chunks) (ha : c.LooksUp a) :
  c.addr + 4 ≤ a ∧ a + 12 ≤ c.addr + c.size ∧ a % 8 = 0
  := by
  have hL := L.bounds
  have hpc := h.place hc
  have hac := h.align hc
  rcases ha with rfl | ⟨n, hn, hsize, ha⟩
  · omega
  · by_cases hwrap : n + 15 < 2 ^ 32
    · have hle := (padded_chunkSizeFor hwrap).2
      rw [Word32.add_of_lt (by omega)] at ha
      obtain ⟨hlow, hhigh, hmod⟩ := mem_probes ha (by omega)
      omega
    · -- the end of the block is in front of its start
      have hstop : Word32.add (c.addr + 4) n = c.addr + 4 + n - 2 ^ 32 := by
        rw [Word32.add]
        omega
      obtain ⟨hlow, hhigh, -⟩ := mem_probes ha (by omega)
      omega

/-- What is looked up along a chunk is apart from the payloads of the other ones. -/
theorem Heap.Sound.apart_looksUp (h : H.Sound L X) (hc : c ∈ H.chunks) (hd : d ∈ H.chunks)
    (hne : c ≠ d) (ha : d.LooksUp a) :
  L.Mapped a ∧ Apart (c.addr + 4) a
  := by
  have hL := L.bounds
  have hpc := h.place hc
  have hac := h.align hc
  have hpd := h.place hd
  have hcd := h.apart hc hd hne
  obtain ⟨hlow, hhigh, hmod⟩ := h.looksUp hd ha
  refine ⟨⟨by omega, by omega⟩, ?_⟩
  rw [Apart, minAllocBytes]
  omega

/-! ### Setting and clearing bits -/

/-- The call `x` returns, and `checkBitmap(a)` finds what it found before. -/
def KeepsBit (s : Alloc) (x : M Unit) (a : Nat) : Prop :=
  Returns s x fun _ s' => ∃ bit, (checkBitmap a s).value? = some bit ∧
    (checkBitmap a s').value? = some bit

theorem checkBitmap_value (hg : GlobalsOf L s.glob) (ha : L.Mapped a) :
  (checkBitmap a s).value? = some (bitAt L s.mem (L.slot a))
  := by
  rw [checkBitmap_apply hg ha]
  rfl

theorem keepsBit_updateBitmap {f : BitVec 8 → BitVec 8 → BitVec 8} (hg : GlobalsOf L s.glob)
    (hb : L.Mapped b) (ha : L.Mapped a)
    (hbit : bitAt L (s.mem.write (L.sdramStart + 1028 + L.slot b / 8)
      (f (s.mem (L.sdramStart + 1028 + L.slot b / 8)) (1#8 <<< (7 - L.slot b % 8)))) (L.slot a) =
        bitAt L s.mem (L.slot a)) :
  KeepsBit s (updateBitmap b f) a
  := by
  refine ⟨(), _, updateBitmap_apply f hg hb, _, checkBitmap_value hg ha, ?_⟩
  rw [← hbit]
  refine checkBitmap_value ?_ ha
  exact hg

theorem keepsBit_setBitmap (hg : GlobalsOf L s.glob) (hb : L.Mapped b) (ha : L.Mapped a)
    (h : Apart b a) :
  KeepsBit s (setBitmap b) a
  := by
  apply keepsBit_updateBitmap hg hb ha
  have hne : L.slot a ≠ L.slot b := (h.slot_ne hb.low ha.low).symm
  rw [bitAt_set, decide_eq_false hne, Bool.or_false]

theorem keepsBit_clearBitmap (hg : GlobalsOf L s.glob) (hb : L.Mapped b) (ha : L.Mapped a)
    (h : Apart b a) :
  KeepsBit s (clearBitmap b) a
  := by
  apply keepsBit_updateBitmap hg hb ha
  have hne : L.slot a ≠ L.slot b := (h.slot_ne hb.low ha.low).symm
  rw [bitAt_clear, decide_eq_false hne, Bool.not_false, Bool.and_true]

/--
Addresses that are at least `MIN_ALLOC_BYTES` apart have different places in the bitmap, and to set
or clear the bit of a chunk changes none that is looked up for another one.
-/
theorem bitmap_injective (hg : GlobalsOf L s.glob) (hS : H.Sound L X) :
  (∀ a b, L.Inside a → L.Inside b → Apart a b → PlacesDiffer L a b) ∧
    ∀ c ∈ H.chunks, ∀ d ∈ H.chunks, c ≠ d → ∀ a, d.LooksUp a →
      KeepsBit s (setBitmap (c.addr + 4)) a ∧ KeepsBit s (clearBitmap (c.addr + 4)) a
  := by
  refine ⟨fun a b ha hb h => h.placesDiffer ha hb, ?_⟩
  intro c hc d hd hne a ha
  have hmapped := hS.mapped hc
  obtain ⟨hm, hapart⟩ := hS.apart_looksUp hc hd hne ha
  exact ⟨keepsBit_setBitmap hg hmapped hm hapart, keepsBit_clearBitmap hg hmapped hm hapart⟩

/-- A heap with a block of eight bytes. -/
theorem bitmap_injective_first :
  ∃ (H : Heap) (s : Alloc), H.chunks.length = 2 ∧
    (∀ a b, k70.Inside a → k70.Inside b → Apart a b → PlacesDiffer k70 a b) ∧
      ∀ c ∈ H.chunks, ∀ d ∈ H.chunks, c ≠ d → ∀ a, d.LooksUp a →
        KeepsBit s (setBitmap (c.addr + 4)) a ∧ KeepsBit s (clearBitmap (c.addr + 4)) a
  := by
  obtain ⟨s, -, hgood⟩ := reach_first (L := k70) (n := 8) (by decide) (by decide)
  exact ⟨_, s, by decide, bitmap_injective hgood.glob hgood.inv.sound⟩

/-! ### The check of the bitmap -/

/-- The loop of `kmallocBitmapFunctionIntegrityCheck` from `addr` to `stop`, within a bound: the
addresses it prints, each with whether it is printed in stars. -/
def integrityLoop (heap : Nat) : Nat → Nat → Nat → (Nat → BitVec 8) → List (Nat × Bool)
  | 0, _, _, _ => []
  | n + 1, addr, stop, bitmap =>
    if addr < stop then
      let byte := getAddrByte heap addr
      let bit := getAddrBit heap addr
      (addr, (bitmap byte).getLsbD bit) ::
        integrityLoop heap n (Word32.add addr minAllocBytes) stop
          (Function.update bitmap byte (bitmap byte ||| 1#8 <<< bit))
    else []

/-- `kmallocBitmapFunctionIntegrityCheck()` -/
def kmallocBitmapFunctionIntegrityCheck (L : Layout) : List (Nat × Bool) :=
  integrityLoop L.heap (2 ^ 28) L.heap (L.heap + L.totalRAM) fun _ => 0

/-- To set the bit of an address leaves the bits of others that are apart. -/
theorem getLsbD_update (bitmap : Nat → BitVec 8) (h : PlacesDiffer L a b) :
  (Function.update bitmap (getAddrByte L.heap a)
      (bitmap (getAddrByte L.heap a) ||| 1#8 <<< getAddrBit L.heap a)
        (getAddrByte L.heap b)).getLsbD (getAddrBit L.heap b) =
    (bitmap (getAddrByte L.heap b)).getLsbD (getAddrBit L.heap b)
  := by
  by_cases hbyte : getAddrByte L.heap b = getAddrByte L.heap a
  · have hbit : getAddrBit L.heap b ≠ getAddrBit L.heap a := by
      intro hbit
      exact h.ne (Prod.ext hbyte.symm hbit.symm)
    have hlt : getAddrBit L.heap b < 8 := by
      rw [getAddrBit, dwordBytes]
      omega
    rw [hbyte, Function.update_self, BitVec.getLsbD_or, getLsbD_shiftLeft_one hlt,
      decide_eq_false hbit, Bool.or_false]
  · rw [Function.update_of_ne hbyte]

/-- While the bits from an address on are clear, the loop finds none that is set. -/
theorem integrityLoop_clear {bitmap : Nat → BitVec 8} (hroom : L.sdramEnd + 16 ≤ 2 ^ 32)
    (ha : L.heap ≤ a) (hclear : ∀ b, a ≤ b → L.Inside b →
      (bitmap (getAddrByte L.heap b)).getLsbD (getAddrBit L.heap b) = false) :
  ∀ x ∈ integrityLoop L.heap n a (L.heap + L.totalRAM) bitmap, x.2 = false
  := by
  induction n generalizing a bitmap with
  | zero => nofun
  | succ n ih =>
      rw [integrityLoop]
      split_ifs with hlt
      · have hinside : L.Inside a := ⟨ha, hlt⟩
        have hL := L.bounds
        have htotal := L.totalRAM_eq
        have hnext : Word32.add a minAllocBytes = a + 16 := by
          rw [minAllocBytes, Word32.add_of_lt (by omega)]
        rw [List.forall_mem_cons]
        refine ⟨hclear a (Nat.le_refl a) hinside, ?_⟩
        rw [hnext]
        apply ih (by omega)
        intro b hab hb
        have hapart : Apart a b := .inl hab
        rw [getLsbD_update bitmap (hapart.placesDiffer hinside hb)]
        exact hclear b (by omega) hb
      · exact List.forall_mem_nil _

/-- The check prints no address in stars, unless the memory ends with the address space. -/
theorem integrityCheck_clear (hroom : L.sdramEnd + 16 ≤ 2 ^ 32) :
  ∀ x ∈ kmallocBitmapFunctionIntegrityCheck L, x.2 = false
  := by
  apply integrityLoop_clear hroom (Nat.le_refl _)
  intro b _ _
  exact BitVec.getLsbD_zero

end Kmalloc
