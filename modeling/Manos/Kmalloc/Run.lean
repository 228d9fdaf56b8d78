import Manos.Lib.Run
import Manos.Kmalloc.Malloc
import Manos.Kmalloc.Free

/-!
# Runs of the allocator

The allocator together with its clients: the state is that of the allocator and the blocks
the clients hold.  The clients ask for blocks, free the blocks they hold, and write to
them.  In every state of a run the allocator is uninitialised, or holds a heap whose
allocated chunks are those of the blocks.
-/

open ByteMem PtrChain Tiling Run

namespace Kmalloc

open Exec

/-! ### The system -/

/-- The functions that allocate, with the process that calls them. -/
inductive Request where
  | kmalloc (pid : Int)
  | syskmalloc (pid : Int)
  | syskmalloc0

/-- The functions that free. -/
inductive Release where
  | kfree
  | syskfree

/-- The program of a request for `n` bytes. -/
def Request.run (L : Layout) (n : Nat) : Request → M Nat
  | kmalloc pid => Kmalloc.kmalloc L pid n
  | syskmalloc pid => Kmalloc.syskmalloc L pid n
  | syskmalloc0 => Kmalloc.syskmalloc0 L n

/-- The program that frees `p`. -/
def Release.run (p : Nat) : Release → M Unit
  | kfree => Kmalloc.kfree p
  | syskfree => Kmalloc.syskfree p

/-- The allocator, and the pointers and sizes of the blocks its clients hold. -/
structure Sys where
  alloc : Alloc
  live : List (Nat × Nat)

/-- What the clients do: ask for `n` bytes, free `p`, write a byte. -/
inductive Event where
  | alloc (q : Request) (n : Nat)
  | free (f : Release) (p : Nat)
  | store (a : Nat) (b : BitVec 8)

/-- The state at the start of a call: no access has been made yet. -/
def Alloc.start (s : Alloc) : Alloc := { s with log := [] }

/-- What a well-behaved client may do. -/
def Allowed (S : Sys) : Event → Prop
  | .alloc _ n => n + 15 < 2 ^ 32
  | .free _ p => p = 0 ∨ ∃ n, (p, n) ∈ S.live
  | .store a _ => ∃ p n, (p, n) ∈ S.live ∧ p ≤ a ∧ a < p + n

/-- The steps of the allocator and its clients. -/
inductive Step (L : Layout) : Sys → Event → Sys → Prop where
  | alloc {S : Sys} {q : Request} {n r : Nat} {s' : Alloc} (h : Allowed S (.alloc q n))
      (hrun : q.run L n S.alloc.start = .done r s') :
      Step L S (.alloc q n) ⟨s', if r = 0 then S.live else (r, n) :: S.live⟩
  | free {S : Sys} {f : Release} {p : Nat} {s' : Alloc} (h : Allowed S (.free f p))
      (hrun : f.run p S.alloc.start = .done () s') :
      Step L S (.free f p) ⟨s', S.live.filter fun b => b.1 ≠ p⟩
  | store {S : Sys} {a : Nat} {b : BitVec 8} (h : Allowed S (.store a b)) :
      Step L S (.store a b) ⟨{ S.alloc with mem := S.alloc.mem.write a b }, S.live⟩

/-- An allocator on which nothing was called: the global variables are zero. -/
def Uninitialised (s : Alloc) : Prop := s.glob = ⟨0, 0, 0, 0, 0, 0⟩

/-- The states of the system before the first call, whatever the memory holds. -/
def Initial (S : Sys) : Prop := Uninitialised S.alloc ∧ S.live = []

theorem Request.run_eq (L : Layout) (n : Nat) (q : Request) :
  ∃ pid, q.run L n = __kmalloc L n pid
  := by
  cases q with
  | kmalloc pid => use pid; rfl
  | syskmalloc pid => use pid; rfl
  | syskmalloc0 => use 0; rfl

theorem Release.run_eq (p : Nat) (f : Release) :
  f.run p = __kfree p
  := by
  cases f with
  | kfree => rfl
  | syskfree => rfl

/-! ### Blocks -/

/-- The blocks of the clients are those of the allocated chunks. -/
def Blocks (H : Heap) (live : List (Nat × Nat)) : Prop :=
  ∀ p n, (p, n) ∈ live ↔ ∃ c ∈ H.chunks, c.used = some n ∧ p = c.addr + 4

section

variable {L : Layout} {X : List Chunk} {H H' : Heap} {s : Alloc} {c : Chunk}
  {live : List (Nat × Nat)}

theorem Blocks.same (h : Blocks H live) (hH : H.SameBlocks H') :
  Blocks H' live
  := by
  intro p n
  rw [h p n]
  constructor
  · rintro ⟨c, hc, hn, hp⟩
    have hused : c.used ≠ none := by
      rw [hn]
      apply Option.some_ne_none
    refine ⟨c, (hH.chunks c hused).mpr hc, hn, hp⟩
  · rintro ⟨c, hc, hn, hp⟩
    have hused : c.used ≠ none := by
      rw [hn]
      apply Option.some_ne_none
    refine ⟨c, (hH.chunks c hused).mp hc, hn, hp⟩

theorem Blocks.claim {n : Nat} (h : Blocks H live) (hc : c ∈ H.chunks) (hfree : c.used = none) :
  Blocks (H.claim c n) ((c.addr + 4, n) :: live)
  := by
  intro p k
  rw [List.mem_cons, h p k]
  constructor
  · rintro (heq | ⟨d, hd, hk, hp⟩)
    · cases heq
      refine ⟨c.claimed n, mem_replace.mpr (.inr ⟨hc, List.mem_singleton_self _⟩), rfl, rfl⟩
    · refine ⟨d, mem_replace.mpr (.inl ⟨hd, ?_⟩), hk, hp⟩
      rintro rfl
      rw [hk] at hfree
      cases hfree
  · rintro ⟨d, hd, hk, hp⟩
    rcases mem_replace.mp hd with ⟨hd, -⟩ | ⟨-, hd⟩
    · right
      use d
    · left
      rw [List.mem_singleton.mp hd] at hk hp
      cases hk
      rw [hp]
      rfl

theorem Blocks.kfree (h : Blocks H live) (hI : H.Inv L X) (hc : c ∈ H.chunks) :
  Blocks (H.kfree c) (live.filter fun b => b.1 ≠ c.addr + 4)
  := by
  intro p k
  simp only [List.mem_filter, decide_eq_true_eq, h p k]
  constructor
  · rintro ⟨⟨d, hd, hk, hp⟩, hne⟩
    refine ⟨d, mem_replace.mpr (.inl ⟨hd, ?_⟩), hk, hp⟩
    rintro rfl
    apply hne hp
  · rintro ⟨d, hd, hk, hp⟩
    rcases mem_replace.mp hd with ⟨hd, hne⟩ | ⟨-, hd⟩
    · refine ⟨⟨d, hd, hk, hp⟩, ?_⟩
      intro heq
      apply hne (hI.eq_of_addr hd hc (by omega))
    · rw [List.mem_singleton.mp hd] at hk
      cases hk

/-- Where a block lies. -/
theorem Blocks.place {p n : Nat} (h : Blocks H live) (hI : H.Inv L X) (hp : (p, n) ∈ live) :
  p % 8 = 0 ∧ L.heap + 4 ≤ p ∧ p + n + 4 ≤ L.heapEnd
  := by
  obtain ⟨c, hc, hn, rfl⟩ := (h p n).mp hp
  have h₁ := hI.block_bounds hc hn
  have h₂ := hI.align hc
  omega

/-- The bytes of a block are a client's. -/
theorem Blocks.owned {p n x : Nat} (h : Blocks H live) (hp : (p, n) ∈ live) (hx : p ≤ x)
    (hx' : x < p + n) :
  H.Owned L x
  := by
  obtain ⟨c, hc, hn, rfl⟩ := (h p n).mp hp
  right
  right
  refine ⟨c, hc, n, hn, hx, hx'⟩

end

/-! ### The invariant of the system -/

/-- The allocator holds a heap with the blocks of the clients. -/
def Holds (L : Layout) (S : Sys) : Prop := ∃ H, Good L H [] S.alloc.start ∧ Blocks H S.live

/-- The allocator is uninitialised and the clients hold nothing, or it holds a heap with the
blocks of the clients. -/
def SysInv (L : Layout) (S : Sys) : Prop := Initial S ∨ Holds L S

variable {L : Layout} {S : Sys}

/-- What a request leaves: a heap with one more block, of zeros, and the other blocks as
they were in the memory `m`. -/
structure Given (L : Layout) (live : List (Nat × Nat)) (m : ByteMem) (n r : Nat) (s' : Alloc)
    (H : Heap) : Prop where
  good : Good L H [] s'
  blocks : Blocks H (if r = 0 then live else (r, n) :: live)
  fresh : r ≠ 0 → ∀ k, (r, k) ∉ live
  zero : r ≠ 0 → ∀ x, r ≤ x → x < r + n → s'.mem x = 0
  same : ∀ p k, (p, k) ∈ live → ∀ x, p ≤ x → x < p + k → s'.mem x = m x

theorem Good.request {H : Heap} {s : Alloc} {live : List (Nat × Nat)} {n : Nat} (pid : Int)
    (h : Good L H [] s) (hb : Blocks H live) (hn : n + 15 < 2 ^ 32) :
  Returns s (__kmalloc L n pid) fun r s' => ∃ H', Given L live s.mem n r s' H'
  := by
  obtain ⟨hpadded, hroom⟩ := padded_chunkSizeFor hn
  have hsame : H.SameBlocks (H.allocate (chunkSizeFor n)).2 := Heap.sameBlocks_allocate h.inv
  have hI := h.inv_allocate hpadded
  have hown : ∀ p k, (p, k) ∈ live → ∀ x, p ≤ x → x < p + k → s.mem x = H.data x := by
    intro p k hp x hx hx'
    apply h.rep.data x (hb.owned hp hx hx')
  apply Returns.mono (h.kmalloc pid hn)
  rintro r s' ⟨hr, h'⟩
  rw [Heap.kmalloc] at hr h'
  cases hall : H.allocate (chunkSizeFor n) with
  | mk o H' =>
      rw [hall] at hr h' hsame hI
      have hb' := hb.same hsame
      cases o with
      | none =>
          have hr0 : r = 0 := hr
          refine ⟨H', h', ?_, ?_, ?_, ?_⟩
          · rw [if_pos hr0]
            apply hb'
          · intro hne
            apply absurd hr0 hne
          · intro hne
            apply absurd hr0 hne
          · intro p k hp x hx hx'
            rw [hown p k hp x hx hx', h'.rep.data x (hb'.owned hp hx hx'), hsame.data]
      | some c =>
          obtain ⟨hc, hfree, -⟩ := hI.flight c List.mem_cons_self
          have hr0 : r = c.addr + 4 := hr
          have hblocks := hb'.claim (n := n) hc hfree
          have hdata : (H'.claim c n).data = H.data.fill (c.addr + 4) n 0 := by
            rw [← hsame.data]
            rfl
          -- a block the clients hold is in another chunk
          have hother : ∀ p k, (p, k) ∈ live → ∃ d ∈ H'.chunks, d.used = some k ∧ p = d.addr + 4
              ∧ d ≠ c := by
            intro p k hp
            obtain ⟨d, hd, hk, hpd⟩ := (hb' p k).mp hp
            refine ⟨d, hd, hk, hpd, ?_⟩
            rintro rfl
            rw [hfree] at hk
            cases hk
          have hr0' : r ≠ 0 := by omega
          have hle := Heap.size_le_of_allocate (H := H) (congrArg Prod.fst hall)
          refine ⟨H'.claim c n, h', ?_, ?_, ?_, ?_⟩
          · rw [if_neg hr0', hr0]
            apply hblocks
          · intro _ k hk
            obtain ⟨d, hd, -, hpd, hne⟩ := hother r k hk
            apply hne (hI.eq_of_addr hd hc (by omega))
          · intro _ x hx hx'
            have hx₀ : (H'.claim c n).Owned L x := by
              apply hblocks.owned List.mem_cons_self
              · omega
              · omega
            rw [h'.rep.data x hx₀, hdata, fill_apply, if_pos (by omega)]
          · intro p k hp x hx hx'
            obtain ⟨d, hd, hk, hpd, hne⟩ := hother p k hp
            have h₁ := hI.apart hd hc hne
            have h₂ := hI.block_bounds hd hk
            have hpc := hI.place hc
            rw [hown p k hp x hx hx',
              h'.rep.data x (hblocks.owned (List.mem_cons_of_mem _ hp) hx hx'), hdata,
              fill_apply, if_neg (by omega)]

/-- `initRam` before the first call. -/
theorem initRam_start {s : Alloc} (h : Uninitialised s) (L : Layout) :
  Returns s.start (initRam L) fun _ s' => Good L (Heap.initial L s.mem) [] s'
  := by
  apply initRam_returns
  · apply congrArg Globals.ram0 h
  · intro x hx
    cases hx

theorem blocks_initial (L : Layout) (m : ByteMem) :
  Blocks (Heap.initial L m) []
  := by
  intro p n
  constructor
  · intro h
    cases h
  · rintro ⟨c, hc, hn, -⟩
    rw [List.mem_singleton.mp hc] at hn
    cases hn

/-- The programs of the requests return, and give out a block. -/
theorem SysInv.request {n : Nat} (h : SysInv L S) (q : Request) (hn : n + 15 < 2 ^ 32) :
  Returns S.alloc.start (q.run L n) fun r s' => ∃ H', Given L S.live S.alloc.mem n r s' H'
  := by
  obtain ⟨pid, hq⟩ := q.run_eq L n
  rw [hq]
  rcases h with ⟨huninit, hlive⟩ | ⟨H, hgood, hblocks⟩
  · obtain ⟨_, s₁, hinit, h₁⟩ := initRam_start huninit L
    -- the rest of the program runs as it does on an allocator that is initialised
    have hrun : __kmalloc L n pid S.alloc.start = __kmalloc L n pid s₁ := by
      rw [__kmalloc, bind_done hinit, bind_done h₁.initRam]
    obtain ⟨r, s', hx, H', hg⟩ := h₁.request pid (blocks_initial L _) hn
    refine ⟨r, s', hrun.trans hx, H', ?_⟩
    rw [hlive]
    refine ⟨hg.good, hg.blocks, hg.fresh, hg.zero, ?_⟩
    intro p k hp
    cases hp
  · apply hgood.request pid hblocks hn

/-- What a release leaves: a heap without the block, and the other blocks as they were in
the memory `m`. -/
structure Taken (L : Layout) (live : List (Nat × Nat)) (m : ByteMem) (p : Nat) (s' : Alloc)
    (H : Heap) : Prop where
  good : Good L H [] s'
  blocks : Blocks H (live.filter fun b => b.1 ≠ p)
  same : ∀ q k, (q, k) ∈ live → q ≠ p → ∀ x, q ≤ x → x < q + k → s'.mem x = m x

/-- The heap after a block is freed. -/
theorem Good.taken {H : Heap} {s s' : Alloc} {live : List (Nat × Nat)} {c : Chunk}
    (h : Good L H [] s) (hb : Blocks H live) (hc : c ∈ H.chunks)
    (h' : Good L (H.kfree c) [] s') :
  Taken L live s.mem (c.addr + 4) s' (H.kfree c)
  := by
  have hb' := hb.kfree h.inv hc
  refine ⟨h', hb', ?_⟩
  intro q k hq hne x hx hx'
  have hq' : (q, k) ∈ live.filter fun b => b.1 ≠ c.addr + 4 := by
    simp only [List.mem_filter, decide_eq_true_eq]
    refine ⟨hq, hne⟩
  rw [h'.rep.data x (hb'.owned hq' hx hx'), h.rep.data x (hb.owned hq hx hx')]
  rfl

/-- The block at `p` ends the heap. -/
def LastBlock (L : Layout) (S : Sys) (p : Nat) : Prop :=
  p ≠ 0 ∧ p - 4 + (tagAt S.alloc.mem (p - 4)).readSize = L.heapEnd

/-- `NULL` is freed by doing nothing. -/
theorem kfree_null (s : Alloc) :
  __kfree 0 s = .done () s
  := rfl

/-- The programs that free a block return, and take it back, unless the block ends a heap that
ends before the memory does. -/
theorem SysInv.release {p n : Nat} (h : SysInv L S) (f : Release) (hp : (p, n) ∈ S.live)
    (hlast : LastBlock L S p → L.heapEnd = L.sdramEnd) :
  Returns S.alloc.start (f.run p) fun _ s' => ∃ H', Taken L S.live S.alloc.mem p s' H'
  := by
  rw [f.run_eq]
  rcases h with ⟨-, hlive⟩ | ⟨H, hgood, hblocks⟩
  · rw [hlive] at hp
    cases hp
  · obtain ⟨c, hc, hn, rfl⟩ := (hblocks p n).mp hp
    apply Returns.mono (hgood.kfree hc hn _)
    · intro _ s' h'
      refine ⟨H.kfree c, hgood.taken hblocks hc h'⟩
    · intro hend
      apply hlast
      refine ⟨by omega, ?_⟩
      rw [Nat.add_sub_cancel, show S.alloc.mem = S.alloc.start.mem from rfl,
        (hgood.rep.head c hc).1, hend]

/-! ### Writes of the clients -/

/-- A write to a byte of a block changes nothing but that byte. -/
theorem Rep.store {H : Heap} {X : List Chunk} {m : ByteMem} {c : Chunk} {n a : Nat}
    (b : BitVec 8) (h : Rep L H X m) (hI : H.Inv L X) (hc : c ∈ H.chunks) (hn : c.used = some n)
    (ha : c.addr + 4 ≤ a) (ha' : a < c.addr + 4 + n) :
  Rep L { H with data := H.data.write a b } X (m.write a b)
  := by
  have hL := L.bounds
  have hbc := hI.block_bounds hc hn
  have hfar : ∀ x, x ≠ a → m.write a b x = m x := by
    intro x hx
    rw [write_apply, if_neg hx]
  have hother : ∀ d ∈ H.chunks, d.used = none → ∀ x, d.addr ≤ x → x < d.addr + d.size →
      m.write a b x = m x := by
    intro d hd hfree x hx hx'
    apply hfar
    have hne : c ≠ d := by
      rintro rfl
      rw [hn] at hfree
      cases hfree
    have := hI.apart hc hd hne
    omega
  have htag : ∀ d ∈ H.chunks, ∀ x, (d.addr ≤ x ∧ x < d.addr + 4)
      ∨ (d.addr + d.size - 4 ≤ x ∧ x < d.addr + d.size) → m.write a b x = m x := by
    intro d hd x hx
    apply hfar
    by_cases heq : c = d
    · subst heq
      omega
    · have h₁ := hI.apart hc hd heq
      have h₂ := hI.place hd
      omega
  constructor
  case last =>
    rw [← h.last]
    apply load32_congr
    intro x hx hx'
    apply hfar
    omega
  case head =>
    intro d hd
    apply (h.head d hd).congr
    intro x hx hx'
    apply htag d hd x
    left
    omega
  case foot =>
    intro d hd
    have hpd := hI.place hd
    apply (h.foot d hd).congr
    intro x hx hx'
    apply htag d hd x
    right
    omega
  case chain =>
    intro b' hb'
    apply (h.chain b' hb').frame
    intro w hw
    apply load32_congr
    intro x hx hx'
    rcases mem_words_list.mp hw with rfl | ⟨d, hd, hwd⟩
    · have := Bin.addr_bounds L hb'
      apply hfar
      omega
    · obtain ⟨hd', hfree⟩ := hI.listed b' d hd
      have hpd := hI.place hd'
      apply hother d hd' hfree x (by omega) (by omega)
  case unlinked =>
    intro d hd
    obtain ⟨hd', hfree, -⟩ := hI.flight d hd
    have hpd := hI.place hd'
    apply (h.unlinked d hd).congr
    intro x hx hx'
    apply hother d hd' hfree x (by omega) (by omega)
  case bitmap =>
    intro i hi
    rw [bitAt, hfar _ (by omega)]
    apply h.bitmap i hi
  case data =>
    intro x hx
    have hx' := h.data x hx
    simp only [write_apply]
    rw [hx']

/-- A heap after a write to a byte of a block. -/
theorem Good.store {H : Heap} {s : Alloc} {live : List (Nat × Nat)} {p n a : Nat} (b : BitVec 8)
    (h : Good L H [] s) (hb : Blocks H live) (hp : (p, n) ∈ live) (ha : p ≤ a)
    (ha' : a < p + n) :
  Good L { H with data := H.data.write a b } [] { s with mem := s.mem.write a b }
  := by
  obtain ⟨c, hc, hn, rfl⟩ := (hb p n).mp hp
  obtain ⟨h₁, h₂, h₃, h₄, h₅, h₆, h₇, h₈, h₉, h₁₀, h₁₁, h₁₂, h₁₃⟩ := h.inv
  refine ⟨⟨h₁, h₂, h₃, h₄, h₅, h₆, h₇, h₈, h₉, h₁₀, h₁₁, h₁₂, h₁₃⟩, h.glob, ?_, h.log⟩
  apply h.rep.store b h.inv hc hn ha ha'

theorem SysInv.store {p n a : Nat} (b : BitVec 8) (h : SysInv L S) (hp : (p, n) ∈ S.live)
    (ha : p ≤ a) (ha' : a < p + n) :
  Holds L ⟨{ S.alloc with mem := S.alloc.mem.write a b }, S.live⟩
  := by
  rcases h with ⟨-, hlive⟩ | ⟨H, hgood, hblocks⟩
  · rw [hlive] at hp
    cases hp
  · refine ⟨_, hgood.store b hblocks hp ha ha', hblocks⟩

/-! ### Runs -/

/-- A heap does not depend on the accesses that were recorded. -/
theorem Good.start {H : Heap} {X : List Chunk} {s : Alloc} (h : Good L H X s) :
  Good L H X s.start
  where
  inv := h.inv
  glob := h.glob
  rep := h.rep
  log := by
    intro x hx
    cases hx

/-- A free of `p` is not that of a block that ends a heap that ends before the memory does. -/
def FreesInner (L : Layout) (S : Sys) : Event → Prop
  | .free _ p => LastBlock L S p → L.heapEnd = L.sdramEnd
  | _ => True

/-- A step leaves the allocator and the blocks as they are, or leads to a heap with the blocks
of the clients. -/
theorem SysInv.step_cases {S' : Sys} {e : Event} (h : SysInv L S) (he : FreesInner L S e)
    (hs : Step L S e S') :
  (S'.alloc.start = S.alloc.start ∧ S'.live = S.live) ∨ Holds L S'
  := by
  cases hs with
  | alloc hallow hrun =>
      obtain ⟨H', hg⟩ := (h.request _ hallow).done hrun
      right
      refine ⟨H', hg.good.start, hg.blocks⟩
  | @free f p s' hallow hrun =>
      rcases hallow with rfl | ⟨n, hp⟩
      · left
        rw [f.run_eq, kfree_null] at hrun
        cases hrun
        refine ⟨rfl, ?_⟩
        apply List.filter_eq_self.mpr
        intro b hb
        rcases h with ⟨-, hlive⟩ | ⟨H, hgood, hblocks⟩
        · rw [hlive] at hb
          cases hb
        · have := hblocks.place hgood.inv (p := b.1) (n := b.2) hb
          simp only [ne_eq, decide_not, Bool.not_eq_eq_eq_not, Bool.not_true,
            decide_eq_false_iff_not]
          omega
      · obtain ⟨H', hg⟩ := (h.release f hp he).done hrun
        right
        refine ⟨H', hg.good.start, hg.blocks⟩
  | store hallow =>
      obtain ⟨p, n, hp, ha, ha'⟩ := hallow
      right
      apply h.store _ hp ha ha'

theorem Holds.step {S' : Sys} {e : Event} (h : Holds L S) (he : FreesInner L S e)
    (hs : Step L S e S') :
  Holds L S'
  := by
  rcases SysInv.step_cases (.inr h) he hs with ⟨halloc, hlive⟩ | h'
  · obtain ⟨H, hgood, hblocks⟩ := h
    refine ⟨H, ?_, ?_⟩
    · rw [halloc]
      apply hgood
    · rw [hlive]
      apply hblocks
  · apply h'

/-- Every step keeps the invariant of the system. -/
theorem SysInv.step {S' : Sys} {e : Event} (h : SysInv L S) (he : FreesInner L S e)
    (hs : Step L S e S') :
  SysInv L S'
  := by
  rcases h with ⟨huninit, hlive⟩ | h
  · rcases SysInv.step_cases (.inl ⟨huninit, hlive⟩) he hs with ⟨halloc, hlive'⟩ | h'
    · left
      refine ⟨(congrArg Alloc.glob halloc).trans huninit, hlive'.trans hlive⟩
    · right
      apply h'
  · right
    apply h.step he hs

/-- The invariant holds in every state of a run that frees no block at the end of a heap that
ends before the memory does. -/
theorem sysInv_of_reach {S₀ : Sys} (h : Reach (Step L) (FreesInner L) S₀ S)
    (h₀ : SysInv L S₀) :
  SysInv L S
  := by
  apply h.invariant h₀
  intro t e t' ht he hs
  apply ht.step he hs

/-! ### The first block -/

/-- The heap after the first request, for `n` bytes. -/
def Heap.first (L : Layout) (m : ByteMem) (n : Nat) : Chunk × Heap :=
  let p := ((Heap.initial L m).unlink L.firstChunk).allocateSplit L.firstChunk (chunkSizeFor n)
  (p.1, p.2.claim p.1 n)

/-- The first request takes the first chunk apart. -/
theorem Heap.allocate_initial {size : Nat} (m : ByteMem) (h : size ≤ L.heapSize)
    (hmin : 16 ≤ size) :
  (Heap.initial L m).allocate size =
    (some (((Heap.initial L m).unlink L.firstChunk).allocateSplit L.firstChunk size).1,
      (((Heap.initial L m).unlink L.firstChunk).allocateSplit L.firstChunk size).2)
  := by
  have hempty : ∀ i, (Heap.initial L m).lists (.dirty i) = [] := by
    intro i
    simp [Heap.initial]
  have hidx := getBinIndex_bounds hmin
  -- the only chunk is on a list that the search comes to
  have hmem : Bin.clean (maxBins - 1) ∈ cleanBins size := by
    rw [cleanBins]
    apply List.mem_cons_of_mem
    apply List.mem_cons_of_mem
    apply List.mem_map_of_mem
    rw [List.mem_range'_1, maxBins]
    omega
  have hfit : (Heap.initial L m).firstFit size (cleanBins size) = some L.firstChunk := by
    cases hf : (Heap.initial L m).firstFit size (cleanBins size) with
    | none =>
        have hnone := List.findSome?_eq_none_iff.mp hf _ hmem
        have hlist : (Heap.initial L m).lists (.clean (maxBins - 1)) = [L.firstChunk] := by
          simp [Heap.initial]
        have hle : size ≤ L.firstChunk.size := h
        rw [hlist, List.find?_singleton, if_pos (decide_eq_true hle)] at hnone
        cases hnone
    | some c =>
        obtain ⟨⟨b, -, hc⟩, -⟩ := Heap.mem_of_firstFit hf
        simp only [Heap.initial] at hc
        split at hc
        · rw [List.mem_singleton.mp hc]
        · cases hc
  rw [Heap.allocate, hempty, hempty]
  simp only [List.head?_nil, Option.filter_none, List.find?_nil, Heap.rebin, hfit]

/-- The first request gives out the block at the start of the heap. -/
theorem Good.firstRequest {s : Alloc} {m : ByteMem} {n : Nat} (pid : Int)
    (h : Good L (Heap.initial L m) [] s) (hn : n + 15 < 2 ^ 32)
    (hfit : chunkSizeFor n ≤ L.heapSize) :
  Returns s (__kmalloc L n pid) fun r s' => r = L.heap + 4 ∧ Good L (Heap.first L m n).2 [] s'
  := by
  obtain ⟨r, s', hx, hr, hgood⟩ := h.kmalloc pid hn
  have hmin := (padded_chunkSizeFor hn).1.min
  rw [Heap.kmalloc, Heap.allocate_initial _ hfit hmin] at hr hgood
  refine ⟨r, s', hx, ?_, hgood⟩
  rw [hr]
  simp only [Heap.allocateSplit]
  split
  · rfl
  · rfl

theorem Initial.request {n : Nat} (h : Initial S) (q : Request) (hn : n + 15 < 2 ^ 32)
    (hfit : chunkSizeFor n ≤ L.heapSize) :
  Returns S.alloc.start (q.run L n) fun r s' => r = L.heap + 4
    ∧ Good L (Heap.first L S.alloc.mem n).2 [] s'
  := by
  obtain ⟨pid, hq⟩ := q.run_eq L n
  obtain ⟨_, s₁, hinit, h₁⟩ := initRam_start h.1 L
  have hrun : __kmalloc L n pid S.alloc.start = __kmalloc L n pid s₁ := by
    rw [__kmalloc, bind_done hinit, bind_done h₁.initRam]
  obtain ⟨r, s', hx, hr⟩ := h₁.firstRequest pid hn hfit
  rw [hq]
  refine ⟨r, s', hrun.trans hx, hr⟩

/-- The system before the first call, with all of the memory zero. -/
def powerOn : Sys where
  alloc := ⟨fun _ => 0, ⟨0, 0, 0, 0, 0, 0⟩, ⟨0, 0, 0, 0, 0, 0⟩, 0, []⟩
  live := []

theorem initial_powerOn :
  Initial powerOn
  := ⟨rfl, rfl⟩

/-- A run with a single request. -/
theorem reach_first {n : Nat} (hn : n + 15 < 2 ^ 32) (hfit : chunkSizeFor n ≤ L.heapSize) :
  ∃ s', ReachAny (Step L) powerOn ⟨s', [(L.heap + 4, n)]⟩
    ∧ Good L (Heap.first L powerOn.alloc.mem n).2 [] s'
  := by
  obtain ⟨r, s', hrun, rfl, hgood⟩ := initial_powerOn.request (L := L) .syskmalloc0 hn hfit
  refine ⟨s', ?_, hgood⟩
  have hstep : Step L powerOn (.alloc .syskmalloc0 n) _ := Step.alloc hn hrun
  rw [if_neg (by omega)] at hstep
  apply (Reach.refl powerOn).snoc trivial hstep

end Kmalloc
