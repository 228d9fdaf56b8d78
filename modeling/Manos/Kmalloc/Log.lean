import Manos.Kmalloc.Tags

/-!
# The record of accesses

The programs that free a block never look at the accesses recorded so far: on a longer
record they do the same and record the same.  The part of them that follows the counting
of the free changes no counter.
-/

namespace Kmalloc

open Exec

/-! ### Programs that do not look at the record -/

/-- The state `s` with the record `l` before its own. -/
def Alloc.after (l : List Access) (s : Alloc) : Alloc := { s with log := s.log ++ l }

/-- The program `x` does the same whatever was recorded before. -/
def Blind {α : Type} (x : M α) : Prop := ∀ l, Commutes (Alloc.after l) x

section

variable {α β : Type}

theorem Blind.pure (a : α) :
  Blind (Pure.pure a : M α)
  := fun _ => .pure _ a

theorem Blind.bind {x : M α} {f : α → M β} (hx : Blind x) (hf : ∀ a, Blind (f a)) :
  Blind (x >>= f)
  := fun l => .bind (hx l) fun a => hf a l

theorem Blind.assert (p : Prop) [Decidable p] (msg : String) :
  Blind (Exec.assert p msg)
  := fun _ => .assert _ p msg

theorem Blind.when {p : Prop} [Decidable p] {x : M Unit} (hx : Blind x) :
  Blind (Exec.when p x)
  := fun l => .when (hx l)

theorem Blind.modify {f : Alloc → Alloc} (h : ∀ l s, f (s.after l) = (f s).after l) :
  Blind (Exec.modify f)
  := fun l => .modify (h l)

theorem Blind.get {f : Alloc → M β} (h : ∀ l s, f (s.after l) = f s) (hf : ∀ s, Blind (f s)) :
  Blind (Exec.get >>= f)
  := fun l => .get (h l) fun s => hf s l

theorem blind_record (x : Access) :
  Blind (record x)
  := .modify fun _ _ => rfl

theorem blind_readTag (a : Nat) :
  Blind (readTag a)
  := fun _ _ => rfl

theorem blind_updateTag (a : Nat) (f : ChunkTag → ChunkTag) :
  Blind (updateTag a f)
  := fun _ _ => rfl

theorem blind_loadPtr (a : Nat) :
  Blind (loadPtr a)
  := fun _ _ => rfl

theorem blind_storePtr (a w : Nat) :
  Blind (storePtr a w)
  := .modify fun _ _ => rfl

theorem blind_getSize (chk : Nat) :
  Blind (getSize chk)
  := .bind (blind_readTag chk) fun _ => .pure _

theorem blind_getFooter (chk : Nat) :
  Blind (getFooter chk)
  := .bind (blind_getSize chk) fun _ => .pure _

theorem blind_checkBitmap (addr : Nat) :
  Blind (checkBitmap addr)
  := .get (fun _ _ => rfl) fun _ => .bind (blind_record _) fun _ => .pure _

theorem blind_clearBitmap (addr : Nat) :
  Blind (clearBitmap addr)
  := .get (fun _ _ => rfl) fun _ => .bind (blind_record _) fun _ => .modify fun _ _ => rfl

theorem blind_getDirtyBin (i : Nat) :
  Blind (getDirtyBin i)
  := .get (fun _ _ => rfl) fun _ => .bind (blind_record _) fun _ => .pure _

theorem blind_insertChunkBefore (that this : Nat) :
  Blind (insertChunkBefore that this)
  := by
  refine .bind (.assert _ _) fun _ => .bind (.assert _ _) fun _ => ?_
  refine .bind (blind_loadPtr _) fun _ => .bind (.assert _ _) fun _ => ?_
  refine .bind (blind_storePtr _ _) fun _ => .bind (blind_storePtr _ _) fun _ => ?_
  exact .bind (blind_storePtr _ _) fun _ => blind_storePtr _ _

theorem blind_binRecent (chunk : Nat) :
  Blind (binChunk chunk .binRecent)
  := by
  refine .bind (.bind (blind_loadPtr _) fun _ => .bind (blind_loadPtr _) fun _ => .pure _) ?_
  intro unlinked
  refine .bind (.assert _ _) fun _ => .bind (blind_getSize _) fun _ => ?_
  refine .bind (blind_getDirtyBin 0) fun list => .bind (blind_loadPtr list) fun chunks => ?_
  by_cases hempty : chunks = 0
  · rw [if_pos hempty]
    exact .bind (blind_storePtr _ _) fun _ => blind_storePtr _ _
  · rw [if_neg hempty]
    apply blind_insertChunkBefore

theorem blind_assertNeighbour (who : String) (chk : Nat) (beside : ChunkTag) :
  Blind (assertNeighbour who chk beside)
  := by
  refine .bind (blind_readTag _) fun _ => .bind (blind_getFooter _) fun _ => ?_
  refine .bind (blind_readTag _) fun _ => .bind (.assert _ _) fun _ => ?_
  refine .bind (.assert _ _) fun _ => .bind (.assert _ _) fun _ => .bind (.assert _ _) fun _ => ?_
  exact .bind (blind_checkBitmap _) fun _ => .assert _ _

theorem blind_assertChunk (chunk : Nat) :
  Blind (assertChunk chunk)
  := by
  have hsucc : Blind (getSucc chunk) := .bind (blind_getSize _) fun _ => .pure _
  have hpred : Blind (getPred chunk) := .bind (blind_readTag _) fun _ => .pure _
  refine .bind (blind_readTag _) fun _ => .bind hsucc fun _ => ?_
  refine .bind (blind_readTag _) fun _ => .bind hpred fun _ => .bind hsucc fun _ => ?_
  refine .bind (blind_getSize _) fun _ => .get (fun _ _ => rfl) fun _ => ?_
  refine .bind (.when (blind_assertNeighbour _ _ _)) fun _ => ?_
  exact .when (blind_assertNeighbour _ _ _)

theorem blind_releaseChunk (chunk ptr : Nat) :
  Blind (releaseChunk chunk ptr)
  := by
  refine .bind (blind_getSize _) fun _ => .bind (.modify fun _ _ => rfl) fun _ => ?_
  refine .bind (blind_updateTag _ _) fun _ => .bind (blind_updateTag _ _) fun _ => ?_
  refine .bind (blind_getFooter _) fun _ => .bind (blind_updateTag _ _) fun _ => ?_
  refine .bind (blind_getFooter _) fun _ => .bind (blind_updateTag _ _) fun _ => ?_
  refine .bind (blind_storePtr _ _) fun _ => .bind (blind_storePtr _ _) fun _ => ?_
  exact .bind (blind_clearBitmap _) fun _ => blind_binRecent _

/-- `__kfree` does the same whatever was recorded before. -/
theorem blind_kfree (ptr : Nat) :
  Blind (__kfree ptr)
  := by
  rw [__kfree]
  split
  · exact .pure _
  · split
    · exact .pure _
    · refine .bind (blind_checkBitmap _) fun _ => .bind (.assert _ _) fun _ => ?_
      refine .get (fun _ _ => rfl) fun _ => .bind (.assert _ _) fun _ => ?_
      refine .bind (blind_checkBitmap _) fun _ => .when ?_
      exact .bind (blind_assertChunk _) fun _ => blind_releaseChunk _ _

/-- What was recorded before a program starts is still recorded when it ends. -/
theorem Blind.mem_log {x : M α} (hx : Blind x) {s : Alloc} {a : Access} (ha : a ∈ s.log) :
  a ∈ (x s).state.log
  := by
  have h := hx s.log { s with log := [] }
  rw [show Alloc.after s.log { s with log := [] } = s from rfl] at h
  rw [h]
  cases x { s with log := [] } with
  | done b s' => exact List.mem_append_right _ ha
  | stop e s' => exact List.mem_append_right _ ha

end

/-! ### Programs that change no counter -/

theorem preserves_ctr_getFooter (chk : Nat) :
  Preserves Alloc.ctr (getFooter chk)
  := fun _ => rfl

theorem preserves_ctr_updateTag (a : Nat) (f : ChunkTag → ChunkTag) :
  Preserves Alloc.ctr (updateTag a f)
  := fun _ => rfl

theorem preserves_ctr_loadPtr (a : Nat) :
  Preserves Alloc.ctr (loadPtr a)
  := fun _ => rfl

theorem preserves_ctr_storePtr (a w : Nat) :
  Preserves Alloc.ctr (storePtr a w)
  := fun _ => rfl

theorem preserves_ctr_binRecent (chunk : Nat) :
  Preserves Alloc.ctr (binChunk chunk .binRecent)
  := by
  refine .bind (fun _ => rfl) fun unlinked => .bind (.assert _ _ _) fun _ => ?_
  refine .bind (fun _ => rfl) fun _ => .bind (fun _ => rfl) fun list => ?_
  refine .bind (preserves_ctr_loadPtr _) fun chunks => ?_
  by_cases hempty : chunks = 0
  · rw [if_pos hempty]
    exact .bind (preserves_ctr_storePtr _ _) fun _ => preserves_ctr_storePtr _ _
  · rw [if_neg hempty]
    refine .bind (.assert _ _ _) fun _ => .bind (.assert _ _ _) fun _ => ?_
    refine .bind (preserves_ctr_loadPtr _) fun _ => .bind (.assert _ _ _) fun _ => ?_
    refine .bind (preserves_ctr_storePtr _ _) fun _ => .bind (preserves_ctr_storePtr _ _) ?_
    exact fun _ => .bind (preserves_ctr_storePtr _ _) fun _ => preserves_ctr_storePtr _ _

/-- However `releaseChunk` ends, the free was counted. -/
theorem releaseChunk_ctr (chunk ptr : Nat) (s : Alloc) :
  (releaseChunk chunk ptr s).state.ctr = s.ctr.countFree (tagAt s.mem chunk).readSize
  := by
  have h : Preserves Alloc.ctr (do
      updateTag chunk (ChunkTag.writePid 0)
      updateTag chunk (ChunkTag.writeFree true)
      updateTag (← getFooter chunk) (ChunkTag.writePid 0)
      updateTag (← getFooter chunk) (ChunkTag.writeFree true)
      storePtr (prevField chunk) 0
      storePtr (nextField chunk) 0
      clearBitmap ptr
      binChunk chunk .binRecent) := by
    refine .bind (preserves_ctr_updateTag _ _) fun _ => ?_
    refine .bind (preserves_ctr_updateTag _ _) fun _ => ?_
    refine .bind (preserves_ctr_getFooter _) fun _ => ?_
    refine .bind (preserves_ctr_updateTag _ _) fun _ => ?_
    refine .bind (preserves_ctr_getFooter _) fun _ => ?_
    refine .bind (preserves_ctr_updateTag _ _) fun _ => ?_
    refine .bind (preserves_ctr_storePtr _ _) fun _ => ?_
    refine .bind (preserves_ctr_storePtr _ _) fun _ => ?_
    exact .bind (fun _ => rfl) fun _ => preserves_ctr_binRecent _
  rw [releaseChunk, bind_done (getSize_apply chunk s), bind_done (modify_apply _ _), h]

end Kmalloc
