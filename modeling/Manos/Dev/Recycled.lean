import Manos.Dev.Life

/-!
# What is left of a process

The portals `slash` and `dot` that `schedProc` attaches are in blocks that nothing frees: an exit
and `SigAbort` free the portals of the descriptors, and `recycleProc` the group.  So every life
leaves blocks behind, besides the stack.
-/

namespace Dev

variable {pf : Platform} {p p₀ : Proc} {own : Set ℕ}

/-- Of the blocks that were allocated for the process only the stack is still allocated. -/
def Clean (own : Set ℕ) (p : Proc) : Prop := ∀ a ∈ own, a ∈ p.files.heap.live → p.stack = some a

/-- A process whose portal `slash` is still allocated is not clean. -/
theorem Proc.Keeps.not_clean (h : p.Keeps own) :
  ¬ Clean own p
  := fun hclean => h.stack (hclean _ h.owned h.live)

/-- However a process lives and ends, blocks that were allocated for it are left behind. -/
theorem recycled_not_clean (h₀ : p₀.OnFreelist) (hlife : Life pf p₀ .recycled p own) :
  ¬ Clean own p
  := Proc.Keeps.not_clean (Life.inv h₀ hlife)

/-- A process that exits at once. -/
theorem recycled_not_clean_fresh :
  ∃ p own, Life .k70cw freshProc .recycled p own ∧ ¬ Clean own p
  := by
  obtain ⟨p, own, hrunning⟩ := exists_life .k70cw
  obtain ⟨p', hlife⟩ := hrunning.exists_recycled freshProc_onFreelist
  exact ⟨p', own, hlife, recycled_not_clean freshProc_onFreelist hlife⟩

/-- The block of `slash` of a process that exits at once is left behind. -/
theorem slash_left_behind :
  ∃ p own, Life .nice freshProc .recycled p own ∧
    ¬ ∀ a ∈ own, a ∈ p.files.heap.live → p.stack = some a
  := by
  obtain ⟨p, own, hrunning⟩ := exists_life .nice
  obtain ⟨p', hlife⟩ := hrunning.exists_recycled freshProc_onFreelist
  have hkeeps : p'.Keeps own := Life.inv freshProc_onFreelist hlife
  refine ⟨p', own, hlife, fun hclean => ?_⟩
  exact hkeeps.stack (hclean _ hkeeps.owned hkeeps.live)

end Dev
