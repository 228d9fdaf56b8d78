import Manos.Kmalloc.Code

/-!
# Programs that count nothing

The functions that search, cut and bin chunks change no counter, and only add to the accesses that
were recorded.  The counters change where a block is given out and where it is taken back.
-/

namespace Kmalloc

open Exec

/-- The counters are the same, and the accesses that were recorded before still are. -/
def Quiet (s s' : Alloc) : Prop := s'.ctr = s.ctr ∧ s.log <:+ s'.log

instance : Std.Refl Quiet := ⟨fun _ => ⟨rfl, List.suffix_rfl⟩⟩

instance : IsTrans Alloc Quiet :=
  ⟨fun _ _ _ h h' => ⟨h'.1.trans h.1, h.2.trans h'.2⟩⟩

/-! ### Accesses -/

theorem quiet_record (x : Access) :
  Follows Quiet (record x)
  := fun s => ⟨rfl, List.suffix_cons x s.log⟩

theorem quiet_readTag (a : Nat) :
  Follows Quiet (readTag a)
  := fun s => ⟨rfl, List.suffix_cons (Access.tag a) s.log⟩

theorem quiet_updateTag (a : Nat) (f : ChunkTag → ChunkTag) :
  Follows Quiet (updateTag a f)
  := fun s => ⟨rfl, List.suffix_cons (Access.tag a) s.log⟩

theorem quiet_loadPtr (a : Nat) :
  Follows Quiet (loadPtr a)
  := fun _ => ⟨rfl, List.suffix_rfl⟩

theorem quiet_storePtr (a w : Nat) :
  Follows Quiet (storePtr a w)
  := fun _ => ⟨rfl, List.suffix_rfl⟩

theorem quiet_getSize (chk : Nat) :
  Follows Quiet (getSize chk)
  := .bind (quiet_readTag chk) fun _ => .pure _

theorem quiet_getFooter (chk : Nat) :
  Follows Quiet (getFooter chk)
  := .bind (quiet_getSize chk) fun _ => .pure _

theorem quiet_isUnlinked (chk : Nat) :
  Follows Quiet (isUnlinked chk)
  := .bind (quiet_loadPtr _) fun _ => .bind (quiet_loadPtr _) fun _ => .pure _

theorem quiet_isExactMatch (chk sz : Nat) :
  Follows Quiet (isExactMatch chk sz)
  := by
  rw [isExactMatch]
  split
  · apply Follows.pure
  · exact .bind (quiet_getSize chk) fun _ => .pure _

theorem quiet_checkBitmap (addr : Nat) :
  Follows Quiet (checkBitmap addr)
  := .bind .get fun _ => .bind (quiet_record _) fun _ => .pure _

theorem quiet_updateBitmap (addr : Nat) (f : BitVec 8 → BitVec 8 → BitVec 8) :
  Follows Quiet (updateBitmap addr f)
  := .bind .get fun _ => .bind (quiet_record _) fun _ => .modify fun _ => ⟨rfl, List.suffix_rfl⟩

theorem quiet_getCleanBin (i : Nat) :
  Follows Quiet (getCleanBin i)
  := .bind .get fun _ => .bind (quiet_record _) fun _ => .pure _

theorem quiet_getDirtyBin (i : Nat) :
  Follows Quiet (getDirtyBin i)
  := .bind .get fun _ => .bind (quiet_record _) fun _ => .pure _

/-! ### Lists of chunks -/

theorem quiet_initChunk (mem size : Nat) :
  Follows Quiet (initChunk mem size)
  := by
  refine .bind (.assert _ _) fun _ => .bind (.assert _ _) fun _ => .bind (.assert _ _) fun _ => ?_
  refine .bind .get fun _ => .bind (.assert _ _) fun _ => ?_
  refine .bind (quiet_updateTag _ _) fun _ => .bind (quiet_updateTag _ _) fun _ => ?_
  refine .bind (quiet_getFooter _) fun _ => .bind (quiet_updateTag _ _) fun _ => ?_
  refine .bind (quiet_updateTag _ _) fun _ => ?_
  refine .bind (quiet_getFooter _) fun _ => .bind (quiet_updateTag _ _) fun _ => ?_
  exact .bind (quiet_storePtr _ _) fun _ => .bind (quiet_storePtr _ _) fun _ => .pure _

theorem quiet_insertChunkBefore (that this : Nat) :
  Follows Quiet (insertChunkBefore that this)
  := by
  refine .bind (.assert _ _) fun _ => .bind (.assert _ _) fun _ => ?_
  refine .bind (quiet_loadPtr _) fun _ => .bind (.assert _ _) fun _ => ?_
  refine .bind (quiet_storePtr _ _) fun _ => .bind (quiet_storePtr _ _) fun _ => ?_
  exact .bind (quiet_storePtr _ _) fun _ => quiet_storePtr _ _

theorem quiet_insertChunkAfter (that this : Nat) :
  Follows Quiet (insertChunkAfter that this)
  := by
  refine .bind (.assert _ _) fun _ => .bind (.assert _ _) fun _ => ?_
  refine .bind (quiet_loadPtr _) fun _ => .bind (quiet_storePtr _ _) fun _ => ?_
  refine .bind (.when (quiet_storePtr _ _)) fun _ => ?_
  exact .bind (quiet_storePtr _ _) fun _ => quiet_storePtr _ _

theorem quiet_unlinkChunk (chunk : Nat) :
  Follows Quiet (unlinkChunk chunk)
  := by
  refine .bind (quiet_loadPtr _) fun _ => .bind (quiet_loadPtr _) fun _ => ?_
  split
  · have hremove : Follows Quiet (removeChunk chunk) := by
      refine .bind (.assert _ _) fun _ => .bind (quiet_loadPtr _) fun _ => ?_
      refine .bind (quiet_loadPtr _) fun _ => .bind (quiet_storePtr _ _) fun _ => ?_
      refine .bind (quiet_loadPtr _) fun _ => ?_
      refine .bind (.when ?_) fun _ => .pure _
      exact .bind (quiet_loadPtr _) fun _ => quiet_storePtr _ _
    refine .bind hremove fun _ => ?_
    exact .bind (quiet_storePtr _ _) fun _ => .bind (quiet_storePtr _ _) fun _ => .pure _
  · apply Follows.pure

theorem quiet_insertChunkSorted (chunk n chunks : Nat) :
  Follows Quiet (insertChunkSorted chunk n chunks)
  := by
  induction n generalizing chunks with
  | zero => apply Follows.fault
  | succ n ih =>
      rw [insertChunkSorted]
      split
      · apply Follows.pure
      · split
        · apply quiet_insertChunkBefore
        · refine .bind (quiet_loadPtr _) fun next => ?_
          split
          · apply quiet_insertChunkAfter
          · apply ih

theorem quiet_binSorted (list chunk : Nat) :
  Follows Quiet (binSorted list chunk)
  := by
  refine .bind (quiet_loadPtr _) fun chunks => ?_
  split
  · exact .bind (quiet_storePtr _ _) fun _ => quiet_storePtr _ _
  · apply quiet_insertChunkSorted

theorem quiet_binChunk (chunk : Nat) (mode : BinChunkMode) :
  Follows Quiet (binChunk chunk mode)
  := by
  refine .bind (quiet_isUnlinked _) fun _ => .bind (.assert _ _) fun _ => ?_
  refine .bind (quiet_getSize _) fun _ => ?_
  cases mode with
  | binDirty => exact .bind (quiet_getDirtyBin _) fun _ => quiet_binSorted _ _
  | binClean => exact .bind (quiet_getCleanBin _) fun _ => quiet_binSorted _ _
  | binRecent =>
      refine .bind (quiet_getDirtyBin 0) fun list => .bind (quiet_loadPtr list) fun chunks => ?_
      split
      · exact .bind (quiet_storePtr _ _) fun _ => quiet_storePtr _ _
      · apply quiet_insertChunkBefore
  | binLastSplitRem =>
      refine .bind (quiet_getCleanBin 0) fun list => .bind (quiet_loadPtr list) fun chunks => ?_
      refine .bind (.assert _ _) fun _ => ?_
      exact .bind (quiet_storePtr _ _) fun _ => quiet_storePtr _ _

/-! ### Allocation -/

theorem quiet_exactFitSearch (size : Nat) (rebin : Bool) (n chunk : Nat) :
  Follows Quiet (exactFitSearch size rebin n chunk)
  := by
  induction n generalizing chunk with
  | zero => apply Follows.fault
  | succ n ih =>
      rw [exactFitSearch]
      split
      · apply Follows.pure
      · refine .bind (quiet_isExactMatch _ _) fun found => ?_
        split
        · apply Follows.pure
        · split
          · refine .bind (quiet_loadPtr _) fun next => .bind (quiet_unlinkChunk _) fun _ => ?_
            exact .bind (quiet_binChunk _ _) fun _ => ih next
          · exact .bind (quiet_loadPtr _) fun next => ih next

theorem quiet_firstFitSearch (size n chunk : Nat) :
  Follows Quiet (firstFitSearch size n chunk)
  := by
  induction n generalizing chunk with
  | zero => apply Follows.fault
  | succ n ih =>
      rw [firstFitSearch]
      split
      · apply Follows.pure
      · refine .bind (quiet_getSize _) fun _ => ?_
        split
        · apply Follows.pure
        · exact .bind (quiet_loadPtr _) fun next => ih next

theorem quiet_splitChunk (chunk size : Nat) :
  Follows Quiet (splitChunk chunk size)
  := by
  refine .bind (quiet_getSize _) fun _ => ?_
  refine .bind (.assert _ _) fun _ => .bind (.assert _ _) fun _ => .bind (.assert _ _) fun _ => ?_
  refine .bind (quiet_initChunk _ _) fun _ => .bind (quiet_initChunk _ _) fun _ => ?_
  refine .bind (.assert _ _) fun _ => .bind (.assert _ _) fun _ => ?_
  refine .bind (quiet_getSize _) fun _ => .bind (.assert _ _) fun _ => ?_
  refine .bind (quiet_getFooter _) fun _ => .bind (quiet_readTag _) fun _ => ?_
  refine .bind (.assert _ _) fun _ => ?_
  refine .bind (quiet_getSize _) fun _ => .bind (.assert _ _) fun _ => ?_
  refine .bind (quiet_getFooter _) fun _ => .bind (quiet_readTag _) fun _ => ?_
  exact .bind (.assert _ _) fun _ => .pure _

theorem quiet_scanCleanBins (size n i : Nat) :
  Follows Quiet (scanCleanBins size n i)
  := by
  induction n generalizing i with
  | zero => apply Follows.pure
  | succ n ih =>
      refine .bind (quiet_getCleanBin i) fun _ => .bind (quiet_loadPtr _) fun _ => ?_
      refine .bind (quiet_firstFitSearch _ _ _) fun chunk => ?_
      split
      · apply Follows.pure
      · apply ih

theorem quiet_preallocate (size n rest sizeRest : Nat) :
  Follows Quiet (preallocate size n rest sizeRest)
  := by
  induction n generalizing rest sizeRest with
  | zero => apply Follows.pure
  | succ n ih =>
      rw [preallocate]
      split
      · refine .bind (quiet_splitChunk _ _) fun _ => .bind (quiet_binChunk _ _) fun _ => ?_
        exact .bind (quiet_getSize _) fun _ => ih _ _
      · apply Follows.pure

theorem quiet_allocateSplit (chunk size : Nat) :
  Follows Quiet (allocateSplit chunk size)
  := by
  refine .bind (quiet_getSize _) fun _ => ?_
  split
  · apply Follows.pure
  · refine .bind (quiet_splitChunk _ _) fun p => .bind (quiet_getSize _) fun _ => ?_
    refine .bind .get fun _ => .bind (quiet_loadPtr _) fun _ => ?_
    split
    · refine .bind (quiet_preallocate _ _ _ _) fun _ => ?_
      exact .bind (quiet_binChunk _ _) fun _ => .pure _
    · exact .bind (.pure _) fun _ => .bind (quiet_binChunk _ _) fun _ => .pure _

theorem quiet_allocateFromClean (size : Nat) :
  Follows Quiet (allocateFromClean size)
  := by
  have htake : ∀ chunk, Follows Quiet (unlinkChunk chunk >>= fun c => allocateSplit c size) :=
    fun chunk => .bind (quiet_unlinkChunk chunk) fun _ => quiet_allocateSplit _ _
  refine .bind (quiet_getCleanBin 0) fun _ => .bind (quiet_loadPtr _) fun _ => ?_
  refine .bind (quiet_firstFitSearch _ _ _) fun _ => ?_
  split
  · apply htake
  refine .bind (quiet_getCleanBin _) fun _ => .bind (quiet_loadPtr _) fun _ => ?_
  refine .bind (quiet_firstFitSearch _ _ _) fun _ => ?_
  split
  · apply htake
  refine .bind (quiet_scanCleanBins _ _ _) fun _ => ?_
  split
  · apply htake
  refine .bind (quiet_scanCleanBins _ _ _) fun _ => ?_
  split
  · apply htake
  · apply Follows.pure

/-- `allocateChunk` from the dirty bin `list` on. -/
theorem quiet_allocateDirty (size list : Nat) :
  Follows Quiet (do
    let dirty ← loadPtr list
    let chunk ← exactFitSearch size false listBound dirty
    if chunk ≠ 0 then unlinkChunk chunk else do
      let recent ← loadPtr (← recentChunkBin)
      let chunk ← exactFitSearch size true listBound recent
      if chunk ≠ 0 then unlinkChunk chunk else allocateFromClean size)
  := by
  refine .bind (quiet_loadPtr _) fun _ => .bind (quiet_exactFitSearch _ _ _ _) fun _ => ?_
  split
  · apply quiet_unlinkChunk
  refine .bind (quiet_getDirtyBin 0) fun _ => .bind (quiet_loadPtr _) fun _ => ?_
  refine .bind (quiet_exactFitSearch _ _ _ _) fun _ => ?_
  split
  · apply quiet_unlinkChunk
  · apply quiet_allocateFromClean

theorem quiet_allocateChunk (size : Nat) :
  Follows Quiet (allocateChunk size)
  := by
  refine .bind (quiet_getDirtyBin 0) fun _ => .bind (quiet_loadPtr _) fun _ => ?_
  refine .bind (quiet_isExactMatch _ _) fun found => ?_
  split
  · apply quiet_unlinkChunk
  · exact .bind (quiet_getDirtyBin _) fun list => quiet_allocateDirty size list

theorem quiet_probeBitmap (n iter stop : Nat) :
  Follows Quiet (probeBitmap n iter stop)
  := by
  induction n generalizing iter with
  | zero => apply Follows.fault
  | succ n ih =>
      rw [probeBitmap]
      split
      · refine .bind (quiet_checkBitmap _) fun _ => .bind (.assert _ _) fun _ => ih _
      · apply Follows.pure

/-! ### Programs that return -/

theorem initChunk_eq {mem size chunk : Nat} {s s' : Alloc}
    (hrun : initChunk mem size s = .done chunk s') :
  chunk = mem
  := by
  have hassert : ∀ (p : Prop) [Decidable p] (msg : String), Follows Quiet (Exec.assert p msg) :=
    fun p _ msg => .assert p msg
  obtain ⟨_, _, -, hrun⟩ := (hassert _ _).first hrun
  obtain ⟨_, _, -, hrun⟩ := (hassert _ _).first hrun
  obtain ⟨_, _, -, hrun⟩ := (hassert _ _).first hrun
  obtain ⟨_, _, -, hrun⟩ := Follows.get.first (r := Quiet) hrun
  obtain ⟨_, _, -, hrun⟩ := (hassert _ _).first hrun
  obtain ⟨_, _, -, hrun⟩ := (quiet_updateTag _ _).first hrun
  obtain ⟨_, _, -, hrun⟩ := (quiet_updateTag _ _).first hrun
  obtain ⟨_, _, -, hrun⟩ := (quiet_getFooter _).first hrun
  obtain ⟨_, _, -, hrun⟩ := (quiet_updateTag _ _).first hrun
  obtain ⟨_, _, -, hrun⟩ := (quiet_updateTag _ _).first hrun
  obtain ⟨_, _, -, hrun⟩ := (quiet_getFooter _).first hrun
  obtain ⟨_, _, -, hrun⟩ := (quiet_updateTag _ _).first hrun
  obtain ⟨_, _, -, hrun⟩ := (quiet_storePtr _ _).first hrun
  obtain ⟨_, _, -, hrun⟩ := (quiet_storePtr _ _).first hrun
  cases hrun
  rfl

theorem unlinkChunk_eq {chunk r : Nat} {s s' : Alloc} (hrun : unlinkChunk chunk s = .done r s') :
  r = chunk
  := by
  obtain ⟨prev, _, -, hrun⟩ := (quiet_loadPtr _).first hrun
  obtain ⟨next, _, -, hrun⟩ := (quiet_loadPtr _).first hrun
  split at hrun
  · obtain ⟨c, _, hremove, hrun⟩ := bind_eq_done_iff.mp hrun
    obtain ⟨_, _, -, hremove⟩ := (Follows.assert _ _).first (r := Quiet) hremove
    obtain ⟨_, _, -, hremove⟩ := (quiet_loadPtr _).first hremove
    obtain ⟨_, _, -, hremove⟩ := (quiet_loadPtr _).first hremove
    obtain ⟨_, _, -, hremove⟩ := (quiet_storePtr _ _).first hremove
    obtain ⟨_, _, -, hremove⟩ := (quiet_loadPtr _).first hremove
    obtain ⟨_, _, -, hremove⟩ := bind_eq_done_iff.mp hremove
    cases hremove
    obtain ⟨_, _, -, hrun⟩ := (quiet_storePtr _ _).first hrun
    obtain ⟨_, _, -, hrun⟩ := (quiet_storePtr _ _).first hrun
    cases hrun
    rfl
  · cases hrun
    rfl

/-- `claimChunk` returns the payload, and counts the size that the tag of the chunk has before the
payload is cleared. -/
theorem claimChunk_done {chunk size r : Nat} {pid : Int} {s s' : Alloc}
    (hrun : claimChunk chunk size pid s = .done r s') :
  r = getPayload chunk ∧ s.log <:+ s'.log ∧ ∃ m, s'.ctr = s.ctr.countAlloc (tagAt m chunk).readSize
    ∧ s'.mem = kmemset m (getPayload chunk) 0 size
  := by
  obtain ⟨s₀, t₁, h₁, hrun⟩ := Follows.get.first (r := Quiet) hrun
  obtain ⟨_, t₂, h₂, hrun⟩ := (quiet_getSize _).first hrun
  obtain ⟨_, t₃, h₃, hrun⟩ := (quiet_storePtr _ _).first hrun
  obtain ⟨_, t₄, h₄, hrun⟩ := (quiet_updateTag _ _).first hrun
  obtain ⟨_, t₅, h₅, hrun⟩ := (quiet_getFooter _).first hrun
  obtain ⟨_, t₆, h₆, hrun⟩ := (quiet_updateTag _ _).first hrun
  obtain ⟨_, t₇, h₇, hrun⟩ := (quiet_updateTag _ _).first hrun
  obtain ⟨_, t₈, h₈, hrun⟩ := (quiet_getFooter _).first hrun
  obtain ⟨_, t₉, h₉, hrun⟩ := (quiet_updateTag _ _).first hrun
  obtain ⟨_, t₁₀, h₁₀, hrun⟩ := (quiet_checkBitmap _).first hrun
  obtain ⟨_, t₁₁, h₁₁, hrun⟩ := (Follows.assert _ _).first (r := Quiet) hrun
  obtain ⟨_, t₁₂, h₁₂, hrun⟩ := (quiet_probeBitmap _ _ _).first hrun
  obtain ⟨_, t₁₃, h₁₃, hrun⟩ := (quiet_updateBitmap _ _).first hrun
  have hquiet : Quiet s t₁₃ := by
    apply trans_of Quiet h₁
    apply trans_of Quiet h₂
    apply trans_of Quiet h₃
    apply trans_of Quiet h₄
    apply trans_of Quiet h₅
    apply trans_of Quiet h₆
    apply trans_of Quiet h₇
    apply trans_of Quiet h₈
    apply trans_of Quiet h₉
    apply trans_of Quiet h₁₀
    apply trans_of Quiet h₁₁
    apply trans_of Quiet h₁₂ h₁₃
  cases hrun
  refine ⟨rfl, hquiet.2.trans (List.suffix_cons _ _), t₁₃.mem, ?_, rfl⟩
  rw [← hquiet.1]

end Kmalloc
