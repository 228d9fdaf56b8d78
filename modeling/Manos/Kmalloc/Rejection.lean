import Manos.Kmalloc.Run
import Manos.Kmalloc.Log

/-!
# Pointers that were not given out

What `__kfree` does with a pointer that is not that of a block.  It looks up the bitmap
before it compares the pointer with the heap, the bit it finds is shared by two possible
payloads, and the checks of `assertChunk` read tags from bytes that may be a client's.  So
it leaves the allocator as it was for some of these pointers only; which ones is a
condition on the bitmap and on the tags next to the pointer.
-/

open ByteMem Run

namespace Kmalloc

open Exec

/-! ### The checks of `__kfree`, as predicates of the state -/

/-- The bit of the bitmap for `addr`. -/
def bitOf (s : Alloc) (addr : Nat) : Bool :=
  (s.mem (bitmapAddr s.glob.header (getAddrByte s.glob.heap addr))).getLsbD
    (getAddrBit s.glob.heap addr)

/-- The footer of the chunk at `chk`. -/
def footerAt (s : Alloc) (chk : Nat) : Nat :=
  Word32.sub (Word32.add chk (tagAt s.mem chk).readSize) sizeofChunkTag

/-- The tags at both ends of `chk` agree with each other and with `beside`. -/
def TagsAgree (s : Alloc) (chk : Nat) (beside : ChunkTag) : Prop :=
  (tagAt s.mem chk).readSize = (tagAt s.mem (footerAt s chk)).readSize
    ∧ (tagAt s.mem chk).readSize = beside.readSize
    ∧ (tagAt s.mem chk).free = (tagAt s.mem (footerAt s chk)).free
    ∧ (tagAt s.mem chk).free = beside.free

/-- The checks of the neighbour `chk` pass: its tags agree, and it is free or in the bitmap. -/
def NeighbourPasses (s : Alloc) (chk : Nat) (beside : ChunkTag) : Prop :=
  TagsAgree s chk beside ∧ (beside.free = true ∨ bitOf s (getPayload chk) = true)

/-- The tag before the chunk at `a`. -/
def predTag (s : Alloc) (a : Nat) : ChunkTag := tagAt s.mem (getTagPred a)

/-- The chunk before the one at `a`, as the tag before it says. -/
def predOf (s : Alloc) (a : Nat) : Nat := Word32.sub a (predTag s a).readSize

/-- The chunk after the one at `a`, as its tag says. -/
def succOf (s : Alloc) (a : Nat) : Nat := Word32.add a (tagAt s.mem a).readSize

/-- The chunk at `a` is the first one, or its predecessor passes. -/
def PredPasses (s : Alloc) (a : Nat) : Prop :=
  s.glob.heap = a ∨ NeighbourPasses s (predOf s a) (predTag s a)

/-- The chunk at `a` ends the memory, or its successor passes. -/
def SuccPasses (s : Alloc) (a : Nat) : Prop :=
  succOf s a = s.glob.ramHighAddress ∨ NeighbourPasses s (succOf s a) (tagAt s.mem (succOf s a))

/-- The bytes at `a` and next to it look like a chunk of the heap. -/
def ChunkPasses (s : Alloc) (a : Nat) : Prop := PredPasses s a ∧ SuccPasses s a

/-- The checks of the chunk at `a` come to the byte `i` of the bitmap. -/
def LooksUp (s : Alloc) (a i : Nat) : Prop :=
  (¬ s.glob.heap = a ∧ TagsAgree s (predOf s a) (predTag s a)
    ∧ i = getAddrByte s.glob.heap (getPayload (predOf s a)))
  ∨ (PredPasses s a ∧ ¬ succOf s a = s.glob.ramHighAddress
    ∧ TagsAgree s (succOf s a) (tagAt s.mem (succOf s a))
    ∧ i = getAddrByte s.glob.heap (getPayload (succOf s a)))

/-! ### What the checks do -/

/-- The state `s` after the accesses `l`. -/
def Alloc.access (l : List Access) (s : Alloc) : Alloc := { s with log := l ++ s.log }

/-- From `s` the program `x` only checks: it changes nothing but the record, returns if `P`
holds and stops if not, and comes to the bytes of the bitmap that satisfy `B`. -/
def ChecksFrom (s : Alloc) (x : M Unit) (P : Prop) (B : Nat → Prop) : Prop :=
  ∃ l, (∀ i, .bitmap i ∈ l ↔ B i)
    ∧ ((P ∧ x s = .done () (s.access l))
      ∨ (¬ P ∧ ∃ msg, x s = .stop (.assertion msg) (s.access l)))

section

variable {s : Alloc} {who : String} {chk a : Nat} {beside : ChunkTag}

theorem checkBitmap_eq (addr : Nat) (s : Alloc) :
  checkBitmap addr s = .done (bitOf s addr) (s.access [.bitmap (getAddrByte s.glob.heap addr)])
  := rfl

theorem ChecksFrom.congr {x : M Unit} {P P' : Prop} {B B' : Nat → Prop}
    (h : ChecksFrom s x P B) (hP : P' ↔ P) (hB : ∀ i, B' i ↔ B i) :
  ChecksFrom s x P' B'
  := by
  obtain ⟨l, hl, hx⟩ := h
  refine ⟨l, ?_, ?_⟩
  · intro i
    rw [hl, hB]
  · rw [hP]
    apply hx

/-- An assertion and then checks, which fail and come to nothing if the assertion fails. -/
theorem ChecksFrom.assert {f : Unit → M Unit} {p P : Prop} [Decidable p] {msg : String}
    {B : Nat → Prop} (hneg : ¬ p → ¬ P ∧ ∀ i, ¬ B i) (h : p → ChecksFrom s (f ()) P B) :
  ChecksFrom s (Exec.assert p msg >>= f) P B
  := by
  by_cases hp : p
  · obtain ⟨l, hl, hx⟩ := h hp
    refine ⟨l, hl, ?_⟩
    rw [bind_done (assert_pos hp msg s)]
    apply hx
  · obtain ⟨hP, hB⟩ := hneg hp
    refine ⟨[], ?_, .inr ⟨hP, msg, bind_stop (assert_neg hp msg s)⟩⟩
    intro i
    simp only [List.not_mem_nil, hB]

/-- Checks after the accesses `l`, none of them to the bitmap. -/
theorem ChecksFrom.after {x y : M Unit} {P : Prop} {B : Nat → Prop} {l : List Access}
    (hx : x s = y (s.access l)) (hl : ∀ i, .bitmap i ∉ l) (h : ChecksFrom (s.access l) y P B) :
  ChecksFrom s x P B
  := by
  obtain ⟨k, hk, hf⟩ := h
  have happ : (s.access l).access k = s.access (k ++ l) := by
    simp only [Alloc.access, List.append_assoc]
  refine ⟨k ++ l, ?_, ?_⟩
  · intro i
    rw [List.mem_append, hk]
    simp only [hl, or_false]
  · rw [happ] at hf
    rw [hx]
    apply hf

theorem ChecksFrom.step {α : Type} {x : M α} {f : α → M Unit} {v : α} {P : Prop}
    {B : Nat → Prop} {l : List Access} (hx : x s = .done v (s.access l))
    (hl : ∀ i, .bitmap i ∉ l) (h : ChecksFrom (s.access l) (f v) P B) :
  ChecksFrom s (x >>= f) P B
  := ChecksFrom.after (bind_done hx) hl h

/-- An assertion about the bitmap. -/
theorem ChecksFrom.lookup (s : Alloc) (addr : Nat) (msg : String) (p : Prop) [Decidable p] :
  ChecksFrom s (checkBitmap addr >>= fun b => Exec.assert (p ∨ b = true) msg)
    (p ∨ bitOf s addr = true) fun i => i = getAddrByte s.glob.heap addr
  := by
  refine ⟨[.bitmap (getAddrByte s.glob.heap addr)], ?_, ?_⟩
  · intro i
    simp
  · rw [bind_done (checkBitmap_eq addr s)]
    by_cases h : p ∨ bitOf s addr = true
    · exact .inl ⟨h, assert_pos h msg _⟩
    · exact .inr ⟨h, msg, assert_neg h msg _⟩

/-- Checks one after the other. -/
theorem ChecksFrom.bind {x : M Unit} {f : Unit → M Unit} {P P' : Prop} {B B' : Nat → Prop}
    (h : ChecksFrom s x P B) (hf : ∀ l, ChecksFrom (s.access l) (f ()) P' B') :
  ChecksFrom s (x >>= f) (P ∧ P') fun i => B i ∨ (P ∧ B' i)
  := by
  obtain ⟨l, hl, ⟨hP, hx⟩ | ⟨hP, msg, hx⟩⟩ := h
  · obtain ⟨k, hk, hf⟩ := hf l
    have happ : (s.access l).access k = s.access (k ++ l) := by
      simp only [Alloc.access, List.append_assoc]
    refine ⟨k ++ l, ?_, ?_⟩
    · intro i
      rw [List.mem_append, hk, hl]
      simp only [hP, true_and]
      apply Or.comm
    · rw [happ] at hf
      rw [bind_done hx]
      simp only [hP, true_and]
      apply hf
  · refine ⟨l, ?_, .inr ⟨?_, msg, bind_stop hx⟩⟩
    · intro i
      simp only [hP, false_and, or_false, hl]
    · simp only [hP, false_and, not_false_eq_true]

theorem ChecksFrom.when {x : M Unit} {p P : Prop} [Decidable p] {B : Nat → Prop}
    (h : ChecksFrom s x P B) :
  ChecksFrom s (Exec.when (¬ p) x) (p ∨ P) fun i => ¬ p ∧ B i
  := by
  by_cases hp : p
  · rw [when_neg (not_not_intro hp)]
    refine ⟨[], ?_, .inl ⟨.inl hp, rfl⟩⟩
    intro i
    simp [hp]
  · rw [when_pos hp]
    simp only [hp, false_or, not_false_eq_true, true_and]
    apply h

/-- The checks of a neighbour. -/
theorem assertNeighbour_checks (s : Alloc) (who : String) (chk : Nat) (beside : ChunkTag) :
  ChecksFrom s (assertNeighbour who chk beside) (NeighbourPasses s chk beside)
    fun i => TagsAgree s chk beside ∧ i = getAddrByte s.glob.heap (getPayload chk)
  := by
  have hread : ∀ (s : Alloc) (a : Nat),
      readTag a s = .done (tagAt s.mem a) (s.access [.tag a]) := fun _ _ => rfl
  have hfooter : ∀ s : Alloc,
      getFooter chk s = .done (footerAt s chk) (s.access [.tag chk]) := fun _ => rfl
  apply ChecksFrom.step (hread s chk) (by simp)
  apply ChecksFrom.step (hfooter _) (by simp)
  apply ChecksFrom.step (hread _ _) (by simp)
  apply ChecksFrom.assert
  · intro hne
    exact ⟨fun h => hne h.1.1, fun i h => hne h.1.1⟩
  intro h₁
  apply ChecksFrom.assert
  · intro hne
    exact ⟨fun h => hne h.1.2.1, fun i h => hne h.1.2.1⟩
  intro h₂
  apply ChecksFrom.assert
  · intro hne
    exact ⟨fun h => hne h.1.2.2.1, fun i h => hne h.1.2.2.1⟩
  intro h₃
  apply ChecksFrom.assert
  · intro hne
    exact ⟨fun h => hne h.1.2.2.2, fun i h => hne h.1.2.2.2⟩
  intro h₄
  have hagree : TagsAgree s chk beside := ⟨h₁, h₂, h₃, h₄⟩
  apply (ChecksFrom.lookup _ _ _ _).congr
  · simp only [NeighbourPasses, hagree, true_and]
    rfl
  · intro i
    simp only [hagree, true_and]
    rfl

/-- The checks of a chunk. -/
theorem assertChunk_checks (s : Alloc) (a : Nat) :
  ChecksFrom s (assertChunk a) (ChunkPasses s a) (LooksUp s a)
  := by
  apply ChecksFrom.after (assertChunk_apply a s)
  · simp
  · exact (assertNeighbour_checks _ "pred" (predOf s a) (predTag s a)).when.bind fun l =>
      (assertNeighbour_checks _ "succ" (succOf s a) (tagAt s.mem (succOf s a))).when

end

/-! ### Runs in which the last block is freed -/

variable {L : Layout} {S : Sys}

/-- Whatever is read next to it, a block whose free returns is taken back. -/
theorem Good.kfree_done {H : Heap} {s s' : Alloc} {c : Chunk} {n : Nat} (h : Good L H [] s)
    (hc : c ∈ H.chunks) (hn : c.used = some n) (hrun : __kfree (c.addr + 4) s = .done () s') :
  Good L (H.kfree c) [] s'.start
  := by
  obtain ⟨s₁, -, h₁, heq⟩ := h.kfree_eq hc hn
  rw [heq] at hrun
  obtain ⟨l, -, ⟨-, hx⟩ | ⟨-, msg, hx⟩⟩ := assertChunk_checks s₁ c.addr
  · rw [bind_done hx] at hrun
    -- the accesses of the checks do not matter for what follows
    obtain ⟨_, s₂, hrun₂, h₂⟩ := h₁.start.releaseChunk hc hn
    have hblind := blind_releaseChunk c.addr (c.addr + 4) (l ++ s₁.log) s₁.start
    rw [show s₁.start.after (l ++ s₁.log) = s₁.access l from rfl, hrun, hrun₂] at hblind
    cases hblind
    apply h₂.start
  · rw [bind_stop hx] at hrun
    cases hrun

/-- The invariant of the system is kept by every step. -/
theorem SysInv.step_any {S' : Sys} {e : Event} (h : SysInv L S) (hs : Step L S e S') :
  SysInv L S'
  := by
  cases hs with
  | alloc hallow hrun => exact h.step (e := .alloc _ _) trivial (.alloc hallow hrun)
  | store hallow => exact h.step (e := .store _ _) trivial (.store hallow)
  | @free f p s' hallow hrun =>
      rcases hallow with rfl | ⟨n, hp⟩
      · exact h.step (e := .free f 0) (fun hlast => absurd rfl hlast.1) (.free (.inl rfl) hrun)
      · rcases h with ⟨-, hlive⟩ | ⟨H, hgood, hblocks⟩
        · rw [hlive] at hp
          cases hp
        · obtain ⟨c, hc, hn, rfl⟩ := (hblocks p n).mp hp
          rw [f.run_eq] at hrun
          right
          exact ⟨H.kfree c, hgood.kfree_done hc hn hrun, hblocks.kfree hgood.inv hc⟩

/-- The invariant of the system holds in every state of a run. -/
theorem sysInv_of_reachAny {S₀ : Sys} (h : ReachAny (Step L) S₀ S) (h₀ : SysInv L S₀) :
  SysInv L S
  := by
  apply Reach.invariant h h₀
  intro T e T' hT _ hs
  apply hT.step_any hs

/-! ### Rejection -/

/-- The pointer is between the ends of the heap. -/
def InZone (s : Alloc) (p : Nat) : Prop := p ≥ s.glob.heap ∧ p ≤ s.glob.ramHighAddress

instance (s : Alloc) (p : Nat) : Decidable (InZone s p) :=
  inferInstanceAs (Decidable (_ ∧ _))

/-- The pointer has its bit of the bitmap in common with a block. -/
def SharesBit (S : Sys) (p : Nat) : Prop :=
  ∃ q n, (q, n) ∈ S.live
    ∧ getAddrBitmapOffset S.alloc.glob.heap q = getAddrBitmapOffset S.alloc.glob.heap p

/-- The bytes at `a` and next to it do not look like a chunk, and to find that out only bytes
of the bitmap are looked up. -/
def Refused (L : Layout) (s : Alloc) (a : Nat) : Prop :=
  ¬ ChunkPasses s a ∧ ∀ i, LooksUp s a i → i < L.bitmapSize

/-- The condition for a pointer that is not that of a block to be rejected. -/
def Rejectable (L : Layout) (S : Sys) (p : Nat) : Prop :=
  p = 0 ∨ p % 8 ≠ 0
    ∨ (getAddrByte S.alloc.glob.heap p < L.bitmapSize
      ∧ (¬ SharesBit S p ∨ Refused L S.alloc (p - 4)))

/-- The program ends with the memory and the counters as they were, at an assertion if it
stops, and looks up nothing outside the bitmap. -/
structure Rejects (L : Layout) (s : Alloc) (x : M Unit) : Prop where
  assertion : ∀ e s', x s = .stop e s' → ∃ msg, e = .assertion msg
  mem : (x s).state.mem = s.mem
  ctr : (x s).state.ctr = s.ctr
  bitmap : ∀ i, .bitmap i ∈ (x s).state.log → i < L.bitmapSize

/-- `__kfree` stops after the first look at the bitmap, or comes to `assertChunk`. -/
theorem kfree_cases {s : Alloc} {p : Nat} (h0 : p ≠ 0) (h8 : p % 8 = 0) (hp : p < 2 ^ 32) :
  (¬ (bitOf s p = true ∧ InZone s p) ∧ ∃ msg, __kfree p s =
      .stop (.assertion msg) (s.access [.bitmap (getAddrByte s.glob.heap p)]))
    ∨ ((bitOf s p = true ∧ InZone s p) ∧ __kfree p s =
      (do assertChunk (p - 4); releaseChunk (p - 4) p)
        (s.access [.bitmap (getAddrByte s.glob.heap p), .bitmap (getAddrByte s.glob.heap p)]))
  := by
  have h8' : ¬ p % dwordBytes ≠ 0 := not_not_intro h8
  have hchunk : Word32.sub p sizeofChunkTag = p - 4 := Word32.sub_of_le (show 4 ≤ p by omega) hp
  by_cases hbit : bitOf s p = true
  · by_cases hzone : InZone s p
    · right
      refine ⟨⟨hbit, hzone⟩, ?_⟩
      have hz : ∀ l, p ≥ (s.access l).glob.heap ∧ p ≤ (s.access l).glob.ramHighAddress :=
        fun _ => hzone
      rw [__kfree, if_neg h0, if_neg h8', bind_done (checkBitmap_eq p s),
        bind_done (assert_pos hbit _ _), bind_done (get_apply _), bind_done (assert_pos (hz _) _ _),
        bind_done (checkBitmap_eq p _)]
      rw [show bitOf (s.access _) p = bitOf s p from rfl, when_pos hbit, hchunk]
      rfl
    · left
      refine ⟨fun h => hzone h.2, "Memory error. Address out of allocator zone", ?_⟩
      have hz : ∀ l, ¬ (p ≥ (s.access l).glob.heap ∧ p ≤ (s.access l).glob.ramHighAddress) :=
        fun _ => hzone
      rw [__kfree, if_neg h0, if_neg h8', bind_done (checkBitmap_eq p s),
        bind_done (assert_pos hbit _ _), bind_done (get_apply _), bind_stop (assert_neg (hz _) _ _)]
  · left
    refine ⟨fun h => hbit h.1,
      "Memory error. Cannot free address not allocated by malloc", ?_⟩
    rw [__kfree, if_neg h0, if_neg h8', bind_done (checkBitmap_eq p s),
      bind_stop (assert_neg hbit _ _)]

/-- A bit of the bitmap of a heap is set for the blocks that have it. -/
theorem Good.bitOf_eq {H : Heap} {X : List Chunk} {s : Alloc} {p : Nat} (h : Good L H X s)
    (hidx : getAddrByte s.glob.heap p < L.bitmapSize) :
  bitOf s p = true ↔ ∃ c ∈ H.chunks, c.used ≠ none
    ∧ getAddrBitmapOffset s.glob.heap (c.addr + 4) = getAddrBitmapOffset s.glob.heap p
  := by
  have hbit : bitOf s p = bitAt L s.mem (getAddrBitmapOffset s.glob.heap p) := by
    rw [bitOf, h.glob.header, bitmapAddr_eq hidx]
    rfl
  have hlt : getAddrBitmapOffset s.glob.heap p < 8 * L.bitmapSize := by
    simp only [getAddrByte, dwordBytes] at hidx
    omega
  rw [hbit, h.rep.bitmap _ hlt]
  apply exists_congr
  intro c
  apply and_congr_right
  intro hc
  rw [h.glob.heap, getAddrBitmapOffset_eq (h.inv.sound.mapped hc)]

/-- A pointer passes the first checks when it shares its bit with a block. -/
theorem SysInv.sharesBit_iff {p : Nat} (h : SysInv L S) (h0 : p ≠ 0) (h8 : p % 8 = 0)
    (hp : p < 2 ^ 32) (hidx : getAddrByte S.alloc.glob.heap p < L.bitmapSize) :
  bitOf S.alloc p = true ∧ InZone S.alloc p ↔ SharesBit S p
  := by
  rcases h with ⟨huninit, hlive⟩ | ⟨H, hgood, hblocks⟩
  · constructor
    · rintro ⟨-, -, hzone⟩
      rw [huninit] at hzone
      exact absurd (Nat.le_zero.mp hzone) h0
    · rintro ⟨q, n, hq, -⟩
      rw [hlive] at hq
      cases hq
  · have hL := L.bounds
    have hbit := hgood.bitOf_eq hidx
    have hiff : bitOf S.alloc p = true ↔ SharesBit S p := by
      apply hbit.trans
      constructor
      · rintro ⟨c, hc, hused, hoff⟩
        obtain ⟨n, hn⟩ := Option.ne_none_iff_exists'.mp hused
        exact ⟨c.addr + 4, n, (hblocks _ _).mpr ⟨c, hc, hn, rfl⟩, hoff⟩
      · rintro ⟨q, n, hq, hoff⟩
        obtain ⟨c, hc, hn, rfl⟩ := (hblocks q n).mp hq
        refine ⟨c, hc, ?_, hoff⟩
        rw [hn]
        exact Option.some_ne_none n
    rw [hiff]
    apply and_iff_left_of_imp
    rintro ⟨q, n, hq, hoff⟩
    obtain ⟨c, hc, hn, rfl⟩ := (hblocks q n).mp hq
    have hpc := hgood.inv.place hc
    have hheap : S.alloc.glob.heap = L.heap := hgood.glob.heap
    have hhigh : S.alloc.glob.ramHighAddress = L.sdramEnd := hgood.glob.high
    rw [hheap, getAddrBitmapOffset_eq (hgood.inv.sound.mapped hc), getAddrBitmapOffset,
      minAllocBytes, Layout.slot, Word32.sub] at hoff
    rw [InZone, hheap, hhigh]
    omega

/-- A program that does nothing rejects. -/
theorem rejects_pure {s : Alloc} (h : s.log = []) :
  Rejects L s (pure ())
  where
  assertion := by
    intro e s' hx
    cases hx
  mem := rfl
  ctr := rfl
  bitmap := by
    intro i hi
    rw [pure_apply, Outcome.state_done, h] at hi
    cases hi

/-- A program that stops at an assertion after accesses inside the bitmap rejects. -/
theorem rejects_stop {s : Alloc} {x : M Unit} {msg : String} {l : List Access}
    (hx : x s = .stop (.assertion msg) (s.access l)) (h : s.log = [])
    (hl : ∀ i, .bitmap i ∈ l → i < L.bitmapSize) :
  Rejects L s x
  where
  assertion := by
    intro e s' hx'
    rw [hx] at hx'
    cases hx'
    exact ⟨msg, rfl⟩
  mem := by rw [hx]; rfl
  ctr := by rw [hx]; rfl
  bitmap := by
    intro i hi
    rw [hx, Outcome.state_stop, Alloc.access, h, List.append_nil] at hi
    exact hl i hi

/-- The counters after a free are not those before it. -/
theorem Counters.countFree_ne (size : Nat) (c : Counters) :
  c.countFree size ≠ c
  := by
  intro h
  have hfree : c.freeCount + 1 = c.freeCount := congrArg Counters.freeCount h
  revert hfree
  generalize c.freeCount = k
  bv_omega

/-- A chunk that passes the checks is released, and the free is counted. -/
theorem ctr_of_passes {s : Alloc} {p : Nat} (h0 : p ≠ 0) (h8 : p % 8 = 0) (hp : p < 2 ^ 32)
    (hbit : bitOf s p = true) (hzone : InZone s p) (hpass : ChunkPasses s (p - 4)) :
  (__kfree p s).state.ctr ≠ s.ctr
  := by
  rcases kfree_cases h0 h8 hp with ⟨hn, -⟩ | ⟨-, heq⟩
  · exact absurd ⟨hbit, hzone⟩ hn
  · obtain ⟨l, -, ⟨-, hx⟩ | ⟨hn, -⟩⟩ := assertChunk_checks (s.access
      [.bitmap (getAddrByte s.glob.heap p), .bitmap (getAddrByte s.glob.heap p)]) (p - 4)
    · rw [heq, bind_done hx, releaseChunk_ctr]
      apply Counters.countFree_ne
    · exact absurd hpass hn

/-- A pointer is rejected exactly when the condition holds. -/
theorem SysInv.rejects_iff {p : Nat} (h : SysInv L S) (hp : p < 2 ^ 32) :
  Rejects L S.alloc.start (__kfree p) ↔ Rejectable L S p
  := by
  by_cases h0 : p = 0
  · rw [h0, __kfree, if_pos rfl]
    exact iff_of_true (rejects_pure rfl) (.inl rfl)
  by_cases h8 : p % 8 = 0
  case neg =>
    rw [__kfree, if_neg h0, if_pos (show p % dwordBytes ≠ 0 from h8)]
    exact iff_of_true (rejects_pure rfl) (.inr (.inl h8))
  have hshares := h.sharesBit_iff h0 h8 hp
  rcases kfree_cases (s := S.alloc.start) h0 h8 hp with ⟨hno, msg, hstop⟩ | ⟨hyes, heq⟩
  · -- the first look at the bitmap or the comparison with the heap stops
    constructor
    · intro hr
      have hidx := hr.bitmap (getAddrByte S.alloc.glob.heap p) (by
        rw [hstop]
        exact List.mem_cons_self)
      exact .inr (.inr ⟨hidx, .inl fun hs => hno ((hshares hidx).mpr hs)⟩)
    · rintro (h | h | ⟨hidx, -⟩)
      · exact absurd h h0
      · exact absurd h8 h
      · apply rejects_stop hstop rfl
        intro i hi
        cases List.mem_singleton.mp hi
        exact hidx
  · -- the checks of `assertChunk` decide
    have hlog : ∀ {a}, a ∈ [Access.bitmap (getAddrByte S.alloc.start.glob.heap p),
        .bitmap (getAddrByte S.alloc.start.glob.heap p)] →
        a ∈ (__kfree p S.alloc.start).state.log := by
      intro a ha
      rw [heq]
      apply Blind.mem_log (.bind (blind_assertChunk _) fun _ => blind_releaseChunk _ _)
      exact List.mem_append_left _ ha
    obtain ⟨l, hl, ⟨hpass, -⟩ | ⟨hpass, msg, hx⟩⟩ := assertChunk_checks (S.alloc.start.access
      [.bitmap (getAddrByte S.alloc.start.glob.heap p),
        .bitmap (getAddrByte S.alloc.start.glob.heap p)]) (p - 4)
    · have hctr := ctr_of_passes (s := S.alloc.start) h0 h8 hp hyes.1 hyes.2 hpass
      constructor
      · intro hr
        exact absurd hr.ctr hctr
      · rintro (h | h | ⟨hidx, h | h⟩)
        · exact absurd h h0
        · exact absurd h8 h
        · exact absurd ((hshares hidx).mp hyes) h
        · exact absurd hpass h.1
    · have hstop : __kfree p S.alloc.start = .stop (.assertion msg) (S.alloc.start.access
          (l ++ [.bitmap (getAddrByte S.alloc.start.glob.heap p),
            .bitmap (getAddrByte S.alloc.start.glob.heap p)])) := by
        rw [heq, bind_stop hx, Alloc.access, Alloc.access, Alloc.access, List.append_assoc]
      constructor
      · intro hr
        have hidx := hr.bitmap _ (hlog List.mem_cons_self)
        refine .inr (.inr ⟨hidx, .inr ⟨hpass, ?_⟩⟩)
        intro i hi
        apply hr.bitmap i
        rw [hstop]
        exact List.mem_append_left _ (List.mem_append_left _ ((hl i).mpr hi))
      · rintro (h | h | ⟨hidx, h | h⟩)
        · exact absurd h h0
        · exact absurd h8 h
        · exact absurd ((hshares hidx).mp hyes) h
        · apply rejects_stop hstop rfl
          intro i hi
          rcases List.mem_append.mp hi with hi | hi
          · exact h.2 i ((hl i).mp hi)
          · simp only [List.mem_cons, List.not_mem_nil, or_false, or_self, Access.bitmap.injEq] at hi
            rw [hi]
            exact hidx

/-- In every state of a run a pointer is rejected exactly when the condition holds. -/
theorem kfree_rejects_iff {S₀ : Sys} (h₀ : Initial S₀) (h : ReachAny (Step L) S₀ S) {p : Nat}
    (hp : p < 2 ^ 32) (f : Release) :
  Rejects L S.alloc.start (f.run p) ↔ Rejectable L S p
  := by
  rw [f.run_eq]
  exact (sysInv_of_reachAny h (.inl h₀)).rejects_iff hp

/-- A pointer past the first block, which has no bit in common with it, is rejected. -/
theorem kfree_rejects_iff_first :
  ∃ s, ReachAny (Step k70) powerOn ⟨s, [(k70.heap + 4, 8)]⟩
    ∧ Rejects k70 s.start (Release.kfree.run (k70.heap + 20))
  := by
  obtain ⟨s, h, hgood⟩ := reach_first (L := k70) (n := 8) (by decide) (by decide)
  have hheap := hgood.glob.heap
  have hreject : Rejectable k70 ⟨s, [(k70.heap + 4, 8)]⟩ (k70.heap + 20) := by
    refine .inr (.inr ⟨?_, .inl ?_⟩)
    · change getAddrByte s.glob.heap _ < _
      rw [hheap]
      decide
    · rintro ⟨q, n, hq, hshared⟩
      cases List.mem_singleton.mp hq
      change getAddrBitmapOffset s.glob.heap _ = getAddrBitmapOffset s.glob.heap _ at hshared
      rw [hheap] at hshared
      revert hshared
      decide
  exact ⟨s, h, (kfree_rejects_iff initial_powerOn h (by decide) .kfree).mpr hreject⟩

/-! ### A pointer into a block -/

/-- The tags that are found in a block of eight zero bytes. -/
theorem tags_in_first {s : Alloc} (h : Good k70 (Heap.first k70 powerOn.alloc.mem 8).2 [] s) :
  tagAt s.mem (k70.heap + 4) = ⟨0, 0, false⟩ ∧ tagAt s.mem (k70.heap + 8) = ⟨0, 0, false⟩
  := by
  have hmem : (⟨k70.heap, 16, some 8⟩ : Chunk)
      ∈ (Heap.first k70 powerOn.alloc.mem 8).2.chunks := by
    decide
  have hload : ∀ a, k70.heap + 4 ≤ a → a ≤ k70.heap + 8 → s.mem.load32 a =
      (Heap.first k70 powerOn.alloc.mem 8).2.data.load32 a := by
    intro a ha ha'
    apply load32_congr
    intro x hx hx'
    apply h.rep.data x
    exact .inr (.inr ⟨_, hmem, 8, rfl, by simp only; omega, by simp only; omega⟩)
  rw [tagAt, tagAt, hload _ (by omega) (by omega), hload _ (by omega) (by omega)]
  decide

/-- On the K70 the pointer eight bytes after that of a block of eight zero bytes is accepted:
it has its bit in common with the block, and the bytes of the block look like tags. -/
theorem kfree_accepts_interior :
  ∃ s, ReachAny (Step k70) powerOn ⟨s, [(k70.heap + 4, 8)]⟩
    ∧ (∀ n, (k70.heap + 12, n) ∉ [(k70.heap + 4, 8)])
    ∧ (kfree (k70.heap + 12) s.start).state.ctr ≠ s.ctr
    ∧ ¬ Rejects k70 s.start (kfree (k70.heap + 12))
  := by
  obtain ⟨s, hreach, hgood⟩ := reach_first (L := k70) (n := 8) (by decide) (by decide)
  obtain ⟨ht₁, ht₂⟩ := tags_in_first hgood
  have hheap := hgood.glob.heap
  have hmem : (⟨k70.heap, 16, some 8⟩ : Chunk)
      ∈ (Heap.first k70 powerOn.alloc.mem 8).2.chunks := by
    decide
  have hbit : bitOf s (k70.heap + 12) = true := by
    apply (hgood.bitOf_eq _).mpr
    · refine ⟨_, hmem, by simp, ?_⟩
      rw [hheap]
      decide
    · rw [hheap]
      decide
  have hzone : InZone s (k70.heap + 12) := by
    rw [InZone, hheap, hgood.glob.high]
    decide
  have hpred : predTag s (k70.heap + 8) = ⟨0, 0, false⟩ := ht₁
  have hpredOf : predOf s (k70.heap + 8) = k70.heap + 8 := by
    rw [predOf, hpred]
    decide
  have hsuccOf : succOf s (k70.heap + 8) = k70.heap + 8 := by
    rw [succOf, ht₂]
    decide
  have hfooter : footerAt s (k70.heap + 8) = k70.heap + 4 := by
    rw [footerAt, ht₂]
    decide
  have hneighbour : NeighbourPasses s (k70.heap + 8) ⟨0, 0, false⟩ := by
    refine ⟨?_, .inr hbit⟩
    rw [TagsAgree, hfooter, ht₁, ht₂]
    exact ⟨rfl, rfl, rfl, rfl⟩
  have hpass : ChunkPasses s (k70.heap + 8) := by
    refine ⟨.inr ?_, .inr ?_⟩
    · rw [hpredOf, hpred]
      exact hneighbour
    · rw [hsuccOf, ht₂]
      exact hneighbour
  have hctr := ctr_of_passes (s := s.start) (by decide) (by decide) (by decide) hbit hzone hpass
  refine ⟨s, hreach, by simp, hctr, ?_⟩
  intro hr
  exact hctr hr.ctr

end Kmalloc
