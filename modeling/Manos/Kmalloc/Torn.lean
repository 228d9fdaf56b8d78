import Manos.Kmalloc.Merge

/-!
# Coalescing where something is free beside

Every case of `coalesce` that merges ends with `zeroFooter` on the merged chunk, after its size
was written: the chunk goes on a clean list with a footer of size zero.  A memory with such a chunk
is torn, and shows no heap.
-/

open ByteMem PtrChain Tiling Run

namespace Kmalloc

open Exec

variable {L : Layout} {X : List Chunk} {H : Heap} {s : Alloc} {b : Bin} {c d : Chunk}
  {z : Nat → Nat} {a k n : Nat}

/-! ### Torn memories -/

/-- A listed chunk has a footer of another size than its header. -/
def Torn (L : Layout) (m : ByteMem) : Prop :=
  ∃ b : Bin, b.index < maxBins
    ∧ ∃ a, OnList m (b.addr L) a ∧ sizeAt m (a + sizeAt m a - 4) ≠ sizeAt m a

/-- A torn memory shows no heap. -/
theorem Shows.not_torn {m : ByteMem} (h : Shows L H m) :
  ¬ Torn L m
  := by
  rintro ⟨b, hb, a, ha, hne⟩
  obtain ⟨c, hc, rfl⟩ := (h.linked.onList h.sound hb).mp ha
  have hcH := (h.sound.listed b c hc).1
  have hhead : sizeAt m c.addr = c.size := (h.head c hcH).1
  have hfoot : sizeAt m (c.addr + c.size - 4) = c.size := (h.foot c hcH).1
  apply hne
  rw [hhead, hfoot]

/-- A merged chunk with a footer of size zero is taken off its list and binned. -/
theorem Midway.ensures_torn (h : Midway L H X z s) (hc : c ∈ H.lists b) (hn : z c.addr = n)
    (hfoot : TagWord H (c.addr + n - 4)) (h0 : z (c.addr + n - 4) = 0) (hmin : minAllocBytes ≤ n) :
  Ensures s (Kmalloc.unlinkChunk c.addr >>= fun q => binChunk q .binClean) fun _ s' =>
    Torn L s'.mem
  := by
  obtain ⟨s₁, hx₁, h₁⟩ := h.unlinkChunk hc
  apply Ensures.step hx₁
  obtain ⟨s₂, hx₂, h₂⟩ := h₁.binClean hn hmin
  apply Ensures.done hx₂
  have hlist : c ∈ ((H.unlink c).setList (.clean (getBinIndex n)) (Heap.insertByAddr c
      ((H.unlink c).lists (.clean (getBinIndex n))))).lists (.clean (getBinIndex n)) := by
    rw [Heap.lists_setList, if_pos rfl]
    apply Heap.Inv.mem_insertByAddr.mpr (.inl rfl)
  have hb := h₂.sound.index _ c hlist
  have hcH := (h₂.sound.listed _ c hlist).1
  have hon := (h₂.linked.onList h₂.sound hb).mpr ⟨c, hlist, rfl⟩
  refine ⟨_, hb, c.addr, hon, ?_⟩
  rw [h₂.sizes _ ⟨c, hcH, .inl rfl⟩, hn, h₂.sizes _ hfoot, h0]
  rw [minAllocBytes] at hmin
  omega

/-! ### The cases that merge -/

theorem Heap.Sound.exists_list (h : H.Sound L []) (hc : c ∈ H.chunks) (hfree : c.used = none) :
  ∃ b, c ∈ H.lists b
  := by
  rcases h.covered c hc hfree with hX | hb
  · cases hX
  · apply hb

/-- The end of the cases 2 and 3: the free chunk `d` is merged into the one before it, whose footer
is then torn. -/
theorem Midway.ensures_merge {a d : Chunk} (h : Midway L H [] z s) (ha : a ∈ H.chunks)
    (hafree : a.used = none) (hd : d ∈ H.chunks) (hdfree : d.used = none)
    (had : a.addr + a.size = d.addr) (hza : z a.addr = a.size) (hzd : z d.addr = d.size) :
  Ensures s (do
    let aSize ← Kmalloc.getSize a.addr
    let dSize ← Kmalloc.getSize d.addr
    Kmalloc.updateTag a.addr (ChunkTag.writeSize (Word32.add aSize dSize))
    let size ← Kmalloc.getSize a.addr
    Kmalloc.updateTag (← Kmalloc.getFooter d.addr) (ChunkTag.writeSize size)
    let d ← Kmalloc.unlinkChunk d.addr
    Kmalloc.zeroFooter a.addr
    Kmalloc.zeroTag d
    let a ← Kmalloc.unlinkChunk a.addr
    binChunk a .binClean) fun _ s' => Torn L s'.mem
  := by
  have hL := L.bounds
  have hap := h.sound.place ha
  have hdp := h.sound.place hd
  obtain ⟨ba, hab⟩ := h.sound.exists_list ha hafree
  obtain ⟨bd, hdb⟩ := h.sound.exists_list hd hdfree
  have hA : TagWord H a.addr := ⟨a, ha, .inl rfl⟩
  have hD : TagWord H d.addr := ⟨d, hd, .inl rfl⟩
  have hE : TagWord H (d.addr + d.size - 4) := ⟨d, hd, .inr rfl⟩
  have hend : a.addr + (a.size + d.size) - 4 = d.addr + d.size - 4 := by omega
  have hsum : Word32.add a.size d.size = a.size + d.size := Word32.add_of_lt (by omega)
  have hne : a ≠ d := by
    rintro rfl
    omega
  obtain ⟨s₁, hx₁, h₁⟩ := h.getSize hA hza
  apply Ensures.step hx₁
  obtain ⟨s₂, hx₂, h₂⟩ := h₁.getSize hD hzd
  apply Ensures.step hx₂
  rw [hsum]
  apply h₂.ensures_resize hA hD ((Function.update_of_ne (by omega) _ _).trans hzd) hE rfl
    (by omega) (by omega) (by omega) (by omega)
  intro s₃ h₃
  obtain ⟨s₄, hx₄, h₄⟩ := h₃.unlinkChunk hdb
  apply Ensures.step hx₄
  -- the footer of `a` is now that of the merged chunk
  obtain ⟨s₅, hx₅, h₅⟩ := h₄.zeroFooter hA
    ((Function.update_of_ne (by omega) _ _).trans (Function.update_self ..)) (by omega) (by omega)
    (hend ▸ hE) (by omega)
  apply Ensures.step hx₅
  obtain ⟨s₆, hx₆, h₆⟩ := h₅.zeroTag hD
  apply Ensures.step hx₆
  apply h₆.ensures_torn (h₃.sound.mem_unlink.mpr ⟨hab, hne⟩) (n := a.size + d.size)
  · rw [Function.update_of_ne (by omega), Function.update_of_ne (by omega),
      Function.update_of_ne (by omega), Function.update_self]
  · rw [hend]
    apply hE
  · rw [hend, Function.update_of_ne (by omega), Function.update_self]
  · rw [minAllocBytes]
    omega

/-- Case 2 leaves the chunk before `c` with a torn footer. -/
theorem Shows.coalescePred_torn {p : Chunk} (hg : GlobalsOf L s.glob) (h : Shows L H s.mem)
    (hc : c ∈ H.chunks) (hcfree : c.used = none) (hp : p ∈ H.chunks) (hpfree : p.used = none)
    (hpc : p.addr + p.size = c.addr) :
  Ensures s (coalescePred c.addr) fun _ s' => Torn L s'.mem
  := by
  have hL := L.bounds
  have hcp := h.sound.place hc
  have hpp := h.sound.place hp
  have hPE : TagWord H (c.addr - 4) := hpc ▸ ⟨p, hp, .inr rfl⟩
  have hzP : sizeAt s.mem p.addr = p.size := (h.head p hp).1
  have hzC : sizeAt s.mem c.addr = c.size := (h.head c hc).1
  have hzPE : sizeAt s.mem (c.addr - 4) = p.size := hpc ▸ (h.foot p hp).1
  have hpred : c.addr - p.size = p.addr := by omega
  have h₀ := h.midway hg
  generalize sizeAt s.mem = z at hzP hzC hzPE h₀
  rw [coalescePred]
  obtain ⟨s₁, hx₁, h₁⟩ := h₀.getPred hPE hzPE (by omega) (by omega) (by omega)
  rw [hpred] at hx₁
  apply Ensures.step hx₁
  apply h₁.ensures_notSet
  intro s₂ h₂
  apply h₂.ensures_free
  intro s₃ h₃
  apply h₃.ensures_merge hp hpfree hc hcfree hpc hzP hzC

/-- Case 3 leaves the chunk `c` with a torn footer. -/
theorem Shows.coalesceSucc_torn {u : Chunk} (hg : GlobalsOf L s.glob) (h : Shows L H s.mem)
    (hc : c ∈ H.chunks) (hcfree : c.used = none) (hu : u ∈ H.chunks) (hufree : u.used = none)
    (hcu : u.addr = c.addr + c.size) :
  Ensures s (coalesceSucc c.addr) fun _ s' => Torn L s'.mem
  := by
  have hL := L.bounds
  have hcp := h.sound.place hc
  have hup := h.sound.place hu
  have hC : TagWord H c.addr := ⟨c, hc, .inl rfl⟩
  have hzC : sizeAt s.mem c.addr = c.size := (h.head c hc).1
  have hzU : sizeAt s.mem u.addr = u.size := (h.head u hu).1
  have h₀ := h.midway hg
  generalize sizeAt s.mem = z at hzC hzU h₀
  rw [coalesceSucc]
  obtain ⟨s₁, hx₁, h₁⟩ := h₀.getSucc hC hzC (by omega)
  rw [← hcu] at hx₁
  apply Ensures.step hx₁
  apply h₁.ensures_notSet
  intro s₂ h₂
  apply h₂.ensures_free
  intro s₃ h₃
  apply h₃.ensures_merge hc hcfree hu hufree hcu.symm hzC hzU

/-- Case 1 leaves the chunk before `c` with a torn footer. -/
theorem Shows.coalesceBoth_torn {p u : Chunk} (hg : GlobalsOf L s.glob) (h : Shows L H s.mem)
    (hc : c ∈ H.chunks) (hcfree : c.used = none) (hp : p ∈ H.chunks) (hpfree : p.used = none)
    (hpc : p.addr + p.size = c.addr) (hu : u ∈ H.chunks) (hufree : u.used = none)
    (hcu : u.addr = c.addr + c.size) :
  Ensures s (coalesceBoth c.addr) fun _ s' => Torn L s'.mem
  := by
  have hL := L.bounds
  have hcp := h.sound.place hc
  have hpp := h.sound.place hp
  have hup := h.sound.place hu
  obtain ⟨bc, hcb⟩ := h.sound.exists_list hc hcfree
  obtain ⟨bp, hpb⟩ := h.sound.exists_list hp hpfree
  obtain ⟨bu, hub⟩ := h.sound.exists_list hu hufree
  have hP : TagWord H p.addr := ⟨p, hp, .inl rfl⟩
  have hC : TagWord H c.addr := ⟨c, hc, .inl rfl⟩
  have hU : TagWord H u.addr := ⟨u, hu, .inl rfl⟩
  have hPE : TagWord H (c.addr - 4) := hpc ▸ ⟨p, hp, .inr rfl⟩
  have hCE : TagWord H (c.addr + c.size - 4) := ⟨c, hc, .inr rfl⟩
  have hUE : TagWord H (u.addr + u.size - 4) := ⟨u, hu, .inr rfl⟩
  have hzP : sizeAt s.mem p.addr = p.size := (h.head p hp).1
  have hzC : sizeAt s.mem c.addr = c.size := (h.head c hc).1
  have hzU : sizeAt s.mem u.addr = u.size := (h.head u hu).1
  have hzPE : sizeAt s.mem (c.addr - 4) = p.size := hpc ▸ (h.foot p hp).1
  have hend : p.addr + (p.size + c.size + u.size) - 4 = u.addr + u.size - 4 := by omega
  have hsum : Word32.add (Word32.add p.size c.size) u.size = p.size + c.size + u.size := by
    rw [Word32.add_of_lt (by omega : p.size + c.size < 2 ^ 32), Word32.add_of_lt (by omega)]
  have hpred : c.addr - p.size = p.addr := by omega
  have hpne : p ≠ c := by
    rintro rfl
    omega
  have hune : u ≠ c := by
    rintro rfl
    omega
  have hpu : p ≠ u := by
    rintro rfl
    omega
  have h₀ := h.midway hg
  generalize sizeAt s.mem = z at hzP hzC hzU hzPE h₀
  rw [coalesceBoth]
  obtain ⟨s₁, hx₁, h₁⟩ := h₀.getPred hPE hzPE (by omega) (by omega) (by omega)
  rw [hpred] at hx₁
  apply Ensures.step hx₁
  obtain ⟨s₂, hx₂, h₂⟩ := h₁.getSucc hC hzC (by omega)
  rw [← hcu] at hx₂
  apply Ensures.step hx₂
  apply h₂.ensures_notSet
  intro s₃ h₃
  apply h₃.ensures_notSet
  intro s₄ h₄
  apply h₄.ensures_free
  intro s₅ h₅
  apply h₅.ensures_free
  intro s₆ h₆
  obtain ⟨s₇, hx₇, h₇⟩ := h₆.getSize hP hzP
  apply Ensures.step hx₇
  obtain ⟨s₈, hx₈, h₈⟩ := h₇.getSize hC hzC
  apply Ensures.step hx₈
  obtain ⟨s₉, hx₉, h₉⟩ := h₈.getSize hU hzU
  apply Ensures.step hx₉
  rw [hsum]
  apply h₉.ensures_resize hP hC ((Function.update_of_ne (by omega) _ _).trans hzC) hCE rfl
    (by omega) (by omega) (by omega) (by omega)
  intro t₁ g₁
  obtain ⟨t₂, hy₂, g₂⟩ := g₁.unlinkChunk hcb
  apply Ensures.step hy₂
  have hub₂ := g₁.sound.mem_unlink.mpr ⟨hub, hune⟩
  obtain ⟨t₃, hy₃, g₃⟩ := g₂.unlinkChunk hub₂
  apply Ensures.step hy₃
  have hzU₃ : Function.update (Function.update z p.addr (p.size + c.size + u.size))
      (c.addr + c.size - 4) (p.size + c.size + u.size) u.addr = u.size := by
    rw [Function.update_of_ne (by omega), Function.update_of_ne (by omega), hzU]
  obtain ⟨t₄, hy₄, g₄⟩ := g₃.zeroFooter hU hzU₃ (by omega) (by omega) hUE (by omega)
  apply Ensures.step hy₄
  obtain ⟨t₅, hy₅, g₅⟩ := g₄.zeroTag hC
  apply Ensures.step hy₅
  -- the size of `c` is zero by now, so this is the footer of the chunk before it
  obtain ⟨t₆, hy₆, g₆⟩ := g₅.zeroFooter hC (Function.update_self ..) (by omega) (by omega) hPE
    (by omega)
  apply Ensures.step hy₆
  obtain ⟨t₇, hy₇, g₇⟩ := g₆.zeroTag hU
  apply Ensures.step hy₇
  apply g₇.ensures_torn (g₂.sound.mem_unlink.mpr ⟨g₁.sound.mem_unlink.mpr ⟨hpb, hpne⟩, hpu⟩)
    (n := p.size + c.size + u.size)
  · rw [Function.update_of_ne (by omega), Function.update_of_ne (by omega),
      Function.update_of_ne (by omega), Function.update_of_ne (by omega),
      Function.update_of_ne (by omega), Function.update_self]
  · rw [hend]
    apply hUE
  · rw [hend, Function.update_of_ne (by omega), Function.update_of_ne (by omega),
      Function.update_of_ne (by omega), Function.update_self]
  · rw [minAllocBytes]
    omega

/-! ### Turns and lists -/

/-- Where the chunk `c` is at an end of the heap, the word beyond it is not marked free. -/
def Enclosed (L : Layout) (m : ByteMem) (c : Chunk) : Prop :=
  (c.addr = L.heap → (tagAt m (c.addr - 4)).free = false)
    ∧ (c.addr + c.size = L.heapEnd → (tagAt m (c.addr + c.size)).free = false)

/-- A free bit before a chunk is that of a free chunk. -/
theorem Shows.exists_pred {m : ByteMem} (h : Shows L H m) (hc : c ∈ H.chunks)
    (henc : Enclosed L m c) (hfree : (tagAt m (c.addr - 4)).free = true) :
  ∃ p ∈ H.chunks, p.used = none ∧ p.addr + p.size = c.addr
  := by
  have hne : c.addr ≠ L.heap := by
    intro heq
    rw [henc.1 heq] at hfree
    cases hfree
  obtain ⟨p, hp, hpc⟩ := h.sound.tiles.exists_pred hc hne
  have hfoot := (h.foot p hp).2
  rw [hpc, hfree] at hfoot
  refine ⟨p, hp, Option.isNone_iff_eq_none.mp hfoot.symm, hpc⟩

/-- A free bit behind a chunk is that of a free chunk. -/
theorem Shows.exists_succ {m : ByteMem} (h : Shows L H m) (hc : c ∈ H.chunks)
    (henc : Enclosed L m c) (hfree : (tagAt m (c.addr + c.size)).free = true) :
  ∃ u ∈ H.chunks, u.used = none ∧ u.addr = c.addr + c.size
  := by
  have hne : c.addr + c.size ≠ L.heapEnd := by
    intro heq
    rw [henc.2 heq] at hfree
    cases hfree
  obtain ⟨u, hu, hcu⟩ := h.sound.tiles.exists_succ hc hne
  have hhead := (h.head u hu).2
  rw [hcu, hfree] at hhead
  refine ⟨u, hu, Option.isNone_iff_eq_none.mp hhead.symm, hcu⟩

/-- A turn on a chunk that is not isolated tears the heap. -/
theorem Shows.coalesceChunk_torn (hg : GlobalsOf L s.glob) (h : Shows L H s.mem)
    (hc : c ∈ H.chunks) (hfree : c.used = none) (henc : Enclosed L s.mem c)
    (hiso : ¬ Isolated s.mem c) :
  Ensures s (coalesceChunk c.addr) fun next s' =>
    next = s.mem.load32 (c.addr + 8) ∧ Torn L s'.mem
  := by
  obtain ⟨s₁, hm, hglob, hx⟩ := h.coalesceChunk_eq hg hc hfree
  rw [← hm] at h
  rw [← hglob] at hg
  have hcases : Ensures s₁ (coalesceCases c.addr (tagAt s.mem (c.addr - 4)).free
      (tagAt s.mem (c.addr + c.size)).free) fun _ s' => Torn L s'.mem := by
    rw [Isolated] at hiso
    rw [← hm] at henc hiso ⊢
    cases hpred : (tagAt s₁.mem (c.addr - 4)).free with
    | true =>
        obtain ⟨p, hp, hpfree, hpc⟩ := h.exists_pred hc henc hpred
        cases hsucc : (tagAt s₁.mem (c.addr + c.size)).free with
        | true =>
            obtain ⟨u, hu, hufree, hcu⟩ := h.exists_succ hc henc hsucc
            apply h.coalesceBoth_torn hg hc hfree hp hpfree hpc hu hufree hcu
        | false => apply h.coalescePred_torn hg hc hfree hp hpfree hpc
    | false =>
        cases hsucc : (tagAt s₁.mem (c.addr + c.size)).free with
        | true =>
            obtain ⟨u, hu, hufree, hcu⟩ := h.exists_succ hc henc hsucc
            apply h.coalesceSucc_torn hg hc hfree hu hufree hcu
        | false => apply absurd ⟨hpred, hsucc⟩ hiso
  apply Ensures.congr hx
  apply hcases.bind
  intro _ t ht
  exact Ensures.done rfl ⟨rfl, ht⟩

/-- The first turn on a chunk that is not isolated, after turns that only read. -/
theorem Shows.coalesceFrom_torn {l l₂ : List Chunk} (n : Nat) (hg : GlobalsOf L s.glob)
    (h : Shows L H s.mem) (hb : b.index < maxBins) (hl : H.lists b = l ++ c :: l₂)
    (hl_iso : ∀ d ∈ l, Isolated s.mem d) (henc : Enclosed L s.mem c)
    (hiso : ¬ Isolated s.mem c) :
  ∃ s₁, coalesceFrom (n + 1 + l.length) (PtrChain.head ((H.lists b).map Chunk.addr)) s
      = (coalesceChunk c.addr >>= coalesceFrom n) s₁
    ∧ Ensures s₁ (coalesceChunk c.addr) fun next s' =>
      next = PtrChain.head (l₂.map Chunk.addr) ∧ Torn L s'.mem
  := by
  have hmem : c ∈ H.lists b := by
    rw [hl]
    simp
  obtain ⟨hc, hfree⟩ := h.sound.listed b c hmem
  have hc0 := h.sound.addr_ne_zero hc
  have hchain := h.linked.chain b hb
  rw [hl, List.map_append, List.map_cons] at hchain
  have hl' : H.lists b = [] ++ (l ++ c :: l₂) := hl
  obtain ⟨s₁, hm, hglob, hrun⟩ := h.coalesceFrom_isolated (n + 1) hg hb hl' hl_iso
  rw [← hm] at h henc hiso hchain
  rw [← hglob] at hg
  refine ⟨s₁, ?_, ?_⟩
  · rw [hl, hrun, List.map_cons, PtrChain.head, coalesceFrom, if_neg hc0]
  · rw [← hchain.load_next]
    apply h.coalesceChunk_torn hg hc hfree henc hiso

/-- A list whose last chunk is the only one that is not isolated is not coalesced. -/
theorem Shows.not_coalesces {l : List Chunk} (hg : GlobalsOf L s.glob) (h : Shows L H s.mem)
    (hb : b.index < maxBins) (hl : H.lists b = l ++ [c]) (hl_iso : ∀ d ∈ l, Isolated s.mem d)
    (henc : Enclosed L s.mem c) (hiso : ¬ Isolated s.mem c) :
  ¬ Coalesces L H b s
  := by
  have hlen := h.sound.length_lt b
  obtain ⟨n, hn⟩ := Nat.exists_eq_add_of_lt hlen
  rw [hl, List.length_append, List.length_singleton] at hn
  have hbound : listBound = n + 1 + 1 + l.length := by omega
  obtain ⟨s₁, hrun, htorn⟩ := h.coalesceFrom_torn (n + 1) hg hb hl hl_iso henc hiso
  have hends : Ensures s (coalesce (s.mem.load32 (b.addr L))) fun _ s' => Torn L s'.mem := by
    rw [(h.linked.chain b hb).load, coalesce, hbound]
    apply Ensures.congr hrun
    apply htorn.bind
    intro next t ht
    have hend : coalesceFrom (n + 1) 0 t = .done () t := rfl
    rw [ht.1]
    apply Ensures.done hend ht.2
  intro hco
  obtain ⟨_, s', ⟨H', hH'⟩, ht⟩ := Returns.and_ensures hco hends
  apply hH'.shows.not_torn ht

/-- Coalescing a list of isolated chunks leaves the heap in order; and when none of its chunks but
the last may have a free neighbour, so that nothing is done after the first merge, it does so only
if the last one is isolated as well. -/
theorem coalesces_iff (hg : GlobalsOf L s.glob) (h : Shows L H s.mem) (hb : b.index < maxBins) :
  ((∀ c ∈ H.lists b, Isolated s.mem c) → Coalesces L H b s)
    ∧ ∀ l c, H.lists b = l ++ [c] → (∀ d ∈ l, Isolated s.mem d) → Enclosed L s.mem c →
      (Coalesces L H b s ↔ Isolated s.mem c)
  := by
  refine ⟨h.coalesces hg hb, ?_⟩
  intro l c hl hl_iso henc
  constructor
  · intro hco
    by_contra hiso
    apply h.not_coalesces hg hb hl hl_iso henc hiso hco
  · intro hiso
    apply h.coalesces hg hb
    intro d hd
    rw [hl] at hd
    rcases List.mem_append.mp hd with hd | hd
    · apply hl_iso d hd
    · rw [List.mem_singleton.mp hd]
      apply hiso

/-! ### The words next to the heap -/

/-- The word before the heap is the end of the bitmap, and its free bit that of the last byte. -/
theorem tagAt_heap_free (L : Layout) (m : ByteMem) :
  (tagAt m (L.heap - 4)).free = bitAt L m (8 * (L.bitmapSize - 1))
  := by
  have hL := L.bounds
  have hlast : L.heap - 4 + 3 = L.sdramStart + 1028 + 8 * (L.bitmapSize - 1) / 8 := by omega
  have hbit : 7 - 8 * (L.bitmapSize - 1) % 8 = 7 := by omega
  rw [bitAt, ← hlast, hbit, tagAt, ChunkTag.ofWord, load32]
  generalize hb : m (L.heap - 4 + 3) = byte
  have h₀ := (m (L.heap - 4)).isLt
  have h₁ := (m (L.heap - 4 + 1)).isLt
  have h₂ := (m (L.heap - 4 + 2)).isLt
  have h₃ := byte.isLt
  rw [BitVec.getLsbD, Nat.testBit_eq_decide_div_mod_eq]
  apply decide_eq_decide.mpr
  omega

/-- Without allocated chunks the word before the heap is not marked free. -/
theorem Shows.heap_not_marked {m : ByteMem} (h : Shows L H m)
    (hfree : ∀ c ∈ H.chunks, c.used = none) :
  (tagAt m (L.heap - 4)).free = false
  := by
  have hL := L.bounds
  rw [tagAt_heap_free]
  apply Bool.eq_false_iff.mpr
  intro hbit
  obtain ⟨c, hc, hused, -⟩ := (h.bitmap _ (by omega)).mp hbit
  apply hused (hfree c hc)

/-- Where the memory behind the heap is zero it is not marked free. -/
theorem Good.end_not_marked (h : Good L H X s) (hzero : ∀ x, L.heapEnd ≤ x → H.data x = 0) :
  (tagAt s.mem L.heapEnd).free = false
  := by
  have hbytes : ∀ x, L.heapEnd ≤ x → x < L.heapEnd + 4 → s.mem x = 0#8 := by
    intro x hx _
    rw [h.rep.data x (.inr (.inl hx)), hzero x hx]
    rfl
  rw [tagAt, load32_of_bytes hbytes]
  rfl

/-- On the K70 the first chunk ends where the memory does, which is zero beyond. -/
theorem Heap.data_initial {x : Nat} (hx : k70.heapEnd ≤ x) :
  (Heap.initial k70 powerOn.alloc.mem).data x = 0
  := by
  have hend : k70.heap + k70.totalRAM = k70.heapEnd := by
    decide
  change powerOn.alloc.mem.fill k70.heap k70.totalRAM 0xfa x = 0
  rw [fill_apply, if_neg (by omega)]
  rfl

/-- The heap of the K70 before any request is a list of one isolated chunk, and `coalesce` leaves it
as it is. -/
theorem coalesces_iff_initial :
  ∃ s, Shows k70 (Heap.initial k70 powerOn.alloc.mem) s.mem
    ∧ Coalesces k70 (Heap.initial k70 powerOn.alloc.mem) (.clean (maxBins - 1)) s
  := by
  obtain ⟨_, s, -, hgood⟩ := initRam_start initial_powerOn.1 k70
  refine ⟨s, hgood.shows, (coalesces_iff hgood.glob hgood.shows (by decide)).1 ?_⟩
  have hlist : (Heap.initial k70 powerOn.alloc.mem).lists (.clean (maxBins - 1))
      = [k70.firstChunk] := by
    simp [Heap.initial]
  intro c hc
  rw [hlist, List.mem_singleton] at hc
  subst hc
  constructor
  · apply hgood.shows.heap_not_marked
    intro c hc
    rw [List.mem_singleton.mp hc]
    rfl
  · apply hgood.end_not_marked
    intro x hx
    apply Heap.data_initial hx

/-! ### A heap that is torn -/

/-- The heap of the K70 after its first block, of eight bytes, is freed. -/
def Heap.freedFirst : Heap :=
  (Heap.first k70 powerOn.alloc.mem 8).2.kfree ((k70.firstChunk.front 16).claimed 8)

/-- The first block is freed, and the remainder of the heap beside it is to be coalesced: the heap
is torn. -/
theorem not_coalesces_freedFirst :
  ∃ s, ReachAny (Step k70) powerOn ⟨s, []⟩ ∧ Shows k70 Heap.freedFirst s.mem
    ∧ ¬ Coalesces k70 Heap.freedFirst .remainder s
  := by
  obtain ⟨s, hreach, hgood⟩ := reach_first (L := k70) (n := 8) (by decide) (by decide)
  have hc : (k70.firstChunk.front 16).claimed 8
      ∈ (Heap.first k70 powerOn.alloc.mem 8).2.chunks := by
    decide
  obtain ⟨_, s₂, hfree, hgood₂⟩ := hgood.start.kfree hc rfl fun _ => k70_heapEnd
  have hstep : Step k70 ⟨s, [(k70.heap + 4, 8)]⟩ (.free .syskfree (k70.heap + 4)) ⟨s₂, []⟩ :=
    Step.free (.inr ⟨8, List.mem_singleton_self _⟩) hfree
  refine ⟨s₂, ReachAny.snoc hreach hstep, hgood₂.shows, ?_⟩
  have hlist : Heap.freedFirst.lists .remainder = [] ++ [k70.firstChunk.rest 16] := by
    decide
  have hfront : k70.firstChunk.front 16 ∈ Heap.freedFirst.chunks := by
    decide
  apply hgood₂.shows.not_coalesces hgood₂.glob (by decide) hlist
  · intro d hd
    cases hd
  · constructor
    · intro heq
      have hlow : k70.heap + 16 = k70.heap := heq
      omega
    · intro _
      apply hgood₂.end_not_marked
      intro x hx
      change ByteMem.fill (Heap.initial k70 powerOn.alloc.mem).data _ _ 0 x = 0
      rw [fill_apply]
      split
      · rfl
      · apply Heap.data_initial hx
  · intro hiso
    have hfoot : (tagAt s₂.mem (k70.heap + 16 - 4)).free = true :=
      (hgood₂.shows.foot _ hfront).2
    have hnot : (tagAt s₂.mem (k70.heap + 16 - 4)).free = false := hiso.1
    rw [hfoot] at hnot
    cases hnot

end Kmalloc
