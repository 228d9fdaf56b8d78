import Manos.Dev.Opening

/-!
# Blocks that are left behind

An open allocates the path, its elements, the blocks of the walk and the portal.  The block of the
elements is never freed, and that of the path only when the open fails.  So an open that gets memory
for the elements of its path leaves a block behind, whether it fails or its descriptor is closed
later.
-/

namespace Dev

open Exec

variable {pf : Platform} {v : Node pf} {s : Files} {path : Name} {caps : ℕ}

/-! ### Blocks -/

/-- The same blocks are allocated. -/
def SameBlocks (H H' : Heap) : Prop := ∀ a, a ∈ H'.live ↔ a ∈ H.live

theorem SameBlocks.of_eq {H H' : Heap} (h : H'.live = H.live) :
  SameBlocks H H'
  := fun a => by rw [h]

/-- A block that was not asked for before is not left behind. -/
theorem SameBlocks.notMem {H H' : Heap} (h : SameBlocks H H') {a : ℕ} (ha : H.next ≤ a) :
  a ∉ H'.live
  := by
  intro hmem
  have := H.live_lt a ((h a).mp hmem)
  omega

/--
The open leaves no block behind: if it fails, then the same blocks are allocated after it, and
otherwise they are after `sysclose` of its descriptor.
-/
def LeakFree (pf : Platform) (path : Name) (caps : ℕ) (s : Files) : Prop :=
  Returns s (sysopen pf path caps) fun r s' =>
    if r = -1 then SameBlocks s.heap s'.heap
    else Returns s' (sysclose pf r) fun _ s'' => SameBlocks s.heap s''.heap

/-! ### What an open leaves behind -/

/-- The empty path leads to where it starts. -/
theorem opens_nil (v : Node pf) (H : Heap) :
  Opens v [] H
  := by
  refine .inr ⟨.inr rfl, ?_⟩
  cases hportal : H.grants (H.next + 2) with
  | false => exact .inl rfl
  | true =>
      refine .inr ⟨rfl, fun k hk => ?_⟩
      obtain rfl : k = 0 := Nat.lt_one_iff.mp hk
      exact hportal

theorem elemsBlock_eq_nil_iff {H : Heap} :
  elemsBlock H = [] ↔ H.grants H.next = false ∨ H.grants (H.next + 1) = false
  := by
  rw [elemsBlock]
  split
  · rename_i h
    simp [h]
  · rename_i h
    simp only [true_iff]
    rwa [not_and_or, Bool.not_eq_true, Bool.not_eq_true] at h

/-- The elements of the path are left behind if there was memory for them. -/
theorem elemsBlock_eq_nil {H H' : Heap} (h : SameBlocks H H')
    (hlive : H'.live = elemsBlock H ++ H.live) :
  elemsBlock H = []
  := by
  by_contra hne
  have hgrants : H.grants H.next = true ∧ H.grants (H.next + 1) = true := by
    by_contra hgrants
    exact hne (if_neg hgrants)
  apply h.notMem (Nat.le_succ H.next)
  rw [hlive, elemsBlock, if_pos hgrants]
  exact List.mem_cons_self

/-- The path is left behind if the open succeeds. -/
theorem path_mem_of_close {w : Node pf} {fd a : ℕ} {p : Portal} {s' s'' : Files} {u : Unit}
    {K : List ℕ} (hfd : fd < maxFd) (htable : s'.table fd = some (a, p)) (hp : At p w)
    (hlive : s'.heap.live = a :: (K ++ s.heap.next :: s.heap.live))
    (hclose : sysclose pf fd s' = .done u s'') :
  s.heap.next ∈ s''.heap.live
  := by
  rw [sysclose_heap hfd htable hp (hlive ▸ List.mem_cons_self) hclose, Heap.free_live, hlive,
    List.erase_cons_head]
  simp

/--
An open leaves no block behind exactly when it fails for want of memory for the path, or when the
path is empty, there is no memory for its elements, and there is none for the portal or no
descriptor is free.
-/
theorem sysopen_leakFree_iff (hp : At (s.start path) v) (hm : v.isMount = false) (caps : ℕ) :
  LeakFree pf path caps s ↔
    s.heap.grants s.heap.next = false ∨
      path = [] ∧ s.heap.grants (s.heap.next + 1) = false ∧
        (s.heap.grants (s.heap.next + 2) = false ∨ firstFree s.table = none)
  := by
  constructor
  · rintro ⟨r, s', hrun, hleak⟩
    have hopens := opens_of_done hp hm hrun
    have hopened := (sysopen_returns hp hm hopens caps).done hrun
    cases hopened with
    | refused H e hlive hwhy =>
        rw [if_pos rfl] at hleak
        obtain hpath | helems := elemsBlock_eq_nil_iff.mp (elemsBlock_eq_nil hleak hlive)
        · exact .inl hpath
        obtain hpath | ⟨hgrants | rfl, -⟩ := hopens
        · exact .inl hpath
        · rw [helems] at hgrants
          cases hgrants
        -- the empty path leads to a node
        · obtain hpath | hportal | hnone | hfull := hwhy
          · exact .inl hpath
          · exact .inr ⟨rfl, helems, .inl hportal⟩
          · cases hnone
          · exact .inr ⟨rfl, helems, .inr hfull⟩
    | opened H fd a p w hfd hw hat hpath hportal hlive ha =>
        have hne : (fd : ℤ) ≠ -1 := by omega
        rw [if_neg hne] at hleak
        obtain ⟨u, s'', hclose, hsame⟩ := hleak
        have hopen : At (openDev p caps) w := ⟨hat.device, hat.crumb⟩
        have hmem := path_mem_of_close (firstFree_eq_some_iff.mp hfd).1
          (Function.update_self fd _ s.table) hopen hlive hclose
        exact absurd hmem (hsame.notMem (Nat.le_refl s.heap.next))
  · intro h
    have hopens : Opens v path s.heap := by
      obtain h | ⟨rfl, -⟩ := h
      · exact .inl h
      · exact opens_nil v s.heap
    refine (sysopen_returns hp hm hopens caps).mono ?_
    intro r s' hopened
    cases hopened with
    | refused H e hlive hwhy =>
        have hblock := elemsBlock_eq_nil_iff.mpr (h.imp_right fun h => h.2.1)
        rw [if_pos rfl]
        apply SameBlocks.of_eq
        rw [hlive, hblock]
        rfl
    | opened H fd a p w hfd hw hat hpath hportal hlive ha =>
        obtain h | ⟨-, -, h | h⟩ := h
        · rw [h] at hpath
          cases hpath
        · rw [h] at hportal
          cases hportal
        · rw [h] at hfd
          cases hfd

/-- Without memory for the path nothing is left behind. -/
theorem sysopen_leakFree_iff_refused :
  LeakFree .k70cw (text "/bin/pwd") 0
    { freshFiles with heap := ⟨fun _ => false, 2, [1, 0], by decide⟩ }
  := by
  have hstart : At (Files.start { freshFiles with
      heap := ⟨fun _ => false, 2, [1, 0], by decide⟩ } (text "/bin/pwd")) (rootNode .k70cw) :=
    at_slash .k70cw
  exact (sysopen_leakFree_iff hstart (by decide) 0).mpr (.inl rfl)

/--
With memory for everything, an open of a path that leads nowhere and an open that is closed again
leave blocks behind.
-/
theorem sysopen_leaks :
  ¬ LeakFree .k70cw (text "/nope") 0 freshFiles ∧ ¬ LeakFree .k70cw (text "/bin/pwd") 0 freshFiles
  := by
  constructor
  · rintro ⟨r, s', hrun, hleak⟩
    have hnope : ∃ s, sysopen .k70cw (text "/nope") 0 freshFiles = .done (-1) s ∧
        3 ∈ s.heap.live := ⟨_, rfl, by decide⟩
    obtain ⟨s, hrun', hmem⟩ := hnope
    rw [hrun] at hrun'
    cases hrun'
    exact SameBlocks.notMem hleak (by decide) hmem
  · rintro ⟨r, s', hrun, hleak⟩
    obtain ⟨rfl, a, p, htable, hp, hlive⟩ := (sysopen_fresh (text "/bin/pwd")
      (w := pwdNode) (by decide) (by decide) 0).done hrun
    obtain ⟨u, s'', hclose, hsame⟩ := hleak
    have hmem := path_mem_of_close (s := freshFiles) (K := [3]) (by decide) htable hp hlive hclose
    exact hsame.notMem (by decide) hmem

end Dev
