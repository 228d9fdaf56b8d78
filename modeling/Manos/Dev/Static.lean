import Manos.Dev.Children
import Manos.Lib.Paths

/-!
# Walks through a static namespace

A namespace in which every directory has a child is a tree.  `genericWalk` leaves in its trail the
nodes of the tree to which the parts of a path lead, as far as they lead to nodes.
-/

namespace Dev

open Exec

variable {ns : List StaticNS} {e : StaticNS} {p px : Portal}

/-! ### Trees -/

/-- A namespace that is a tree: it has a root, parents are directories, which are not empty. -/
structure StaticTree (ns : List StaticNS) : Prop extends Ordered ns where
  pos : 0 < ns.length
  rootDir : ns[0].crumb.isDir
  dir : ∀ i (h : i < ns.length), 0 < i → (ns[ns[i].crumb.parentIdx]?).any (·.crumb.isDir)
  child : ∀ i (h : i < ns.length), ns[i].crumb.isDir → HasChild ns i

/-- The parent of an entry, where the root is its own parent. -/
def parentOf (ns : List StaticNS) (e : StaticNS) : StaticNS :=
  if e.crumb.selfIdx = 0 then e else ns[e.crumb.parentIdx]?.getD e

/-- One component of a path. -/
def stepIn (ns : List StaticNS) (e : StaticNS) (name : Name) : Option StaticNS :=
  if !e.crumb.isDir then none
  else if name = text "." then some e
  else if name = text ".." then some (parentOf ns e)
  else (children ns e.crumb.selfIdx).find? (hasName name)

/-- The node that a path leads to, component by component. -/
def resolveIn (ns : List StaticNS) (e : StaticNS) (path : List Name) : Option StaticNS :=
  path.foldlM (stepIn ns) e

/-- The parent of an entry is found in the table. -/
theorem Ordered.getElem?_parentOf (h : Ordered ns) (he : e ∈ ns) :
  parentOf ns e ∈ ns ∧
    (ns ++ [sentinel])[if e.crumb.selfIdx ≠ 0 then e.crumb.parentIdx else e.crumb.selfIdx]? =
      some (parentOf ns e)
  := by
  rw [parentOf]
  by_cases h0 : e.crumb.selfIdx = 0
  · rw [if_pos h0, if_neg (not_not.mpr h0)]
    exact ⟨he, h.getElem?_selfIdx he⟩
  · rw [if_neg h0, if_pos h0]
    obtain ⟨i, hi, rfl⟩ := List.getElem_of_mem he
    rw [h.self i hi] at h0
    have hlt := (h.parent i hi (Nat.pos_of_ne_zero h0)).1.trans hi
    rw [List.getElem?_append_left hlt, List.getElem?_eq_getElem hlt]
    exact ⟨List.getElem_mem hlt, rfl⟩

/-- A directory of a tree has a child. -/
theorem StaticTree.hasChild (h : StaticTree ns) (he : e ∈ ns) (hdir : e.crumb.isDir) :
  HasChild ns e.crumb.selfIdx
  := by
  obtain ⟨i, hi, rfl⟩ := List.getElem_of_mem he
  rw [h.self i hi]
  exact h.child i hi hdir

/-- A step leads to a node of the tree. -/
theorem stepIn_mem (h : Ordered ns) (he : e ∈ ns) {name : Name} {f : StaticNS}
    (hstep : stepIn ns e name = some f) :
  f ∈ ns
  := by
  rw [stepIn] at hstep
  split_ifs at hstep with hdir hself hup
  · exact Option.some.inj hstep ▸ he
  · exact Option.some.inj hstep ▸ (h.getElem?_parentOf he).1
  · exact (List.mem_filter.mp (List.mem_of_find?_eq_some hstep)).1

/-- A well-formed namespace is a tree. -/
theorem WellFormed.staticTree (h : WellFormed ns) :
  StaticTree ns
  := by
  have hlt : ∀ i (hi : i < ns.length), 0 < i → ns[i].crumb.parentIdx < 0xfff := by
    intro i hi hpos
    have := (h.parent i hi hpos).1
    have := h.short
    omega
  have hroot : ∀ hpos : 0 < ns.length, ns[0].crumb.parentIdx = 0xfff := fun _ => h.root.2
  have hsorted : ∀ i j (hij : i < j) (hj : j < ns.length), 0 < i →
      ns[i].crumb.parentIdx ≤ ns[j].crumb.parentIdx :=
    fun i j hij hj hpos => List.rel_of_pairwise_tail h.sorted hpos hij hj
  have hordered : Ordered ns := by
    refine ⟨h.static, h.self, fun hpos => Nat.le_of_eq (hroot hpos).symm,
      fun i hi hpos => ⟨(h.parent i hi hpos).1, hlt i hi hpos⟩, ?_⟩
    intro i j k hij hjk hk heq
    have hk' := hlt k hk (by omega)
    by_cases hi : i = 0
    · subst hi
      rw [← heq, hroot] at hk'
      exact absurd hk' (Nat.lt_irrefl _)
    · have h₁ := hsorted i j hij (hjk.trans hk) (Nat.pos_of_ne_zero hi)
      have h₂ := hsorted j k hjk hk (by omega)
      omega
  refine ⟨hordered, h.pos, h.root.1, fun i hi hpos => (h.parent i hi hpos).2, ?_⟩
  intro i hi hdir
  obtain ⟨e, he, hei⟩ := h.child i hi hdir
  obtain ⟨j, hj, rfl⟩ := List.getElem_of_mem he
  refine ⟨j, hj, Nat.pos_of_ne_zero ?_, hei⟩
  rintro rfl
  rw [hroot hj] at hei
  have := h.short
  omega

/-- The namespace of a device is a tree. -/
theorem staticTree_entries (pf : Platform) (d : Device) :
  StaticTree (d.entries pf)
  := (wellFormed_entries pf d).staticTree

/-! ### The loop over the names -/

theorem pushCrumb_of_lt {t : WalkTrail} (h : t.crumbs.length < t.max) (c : Crumb) :
  pushCrumb t c = ⟨t.max, t.crumbs ++ [c]⟩
  := by
  rw [pushCrumb, if_neg (by omega)]

/-- A turn of the loop over the names is a step. -/
theorem namesLoop_step (h : StaticTree ns) (he : e ∈ ns) (hpx : px.crumb = e.crumb) (name : Name)
    (path : List Name) (ni : NodeInfo) (t : WalkTrail) (H : Heap) :
  ∃ ni', namesLoop (tableFn (ns ++ [sentinel])) (name :: path) px ni t H =
    match stepIn ns e name with
    | none => .done t H
    | some f =>
        namesLoop (tableFn (ns ++ [sentinel])) path { px with crumb := f.crumb } ni'
          (pushCrumb t f.crumb) H
  := by
  have hstatic : px.crumb.isStatic := hpx ▸ h.static e he
  rw [namesLoop, stepIn, hpx]
  cases hdir : e.crumb.isDir with
  | false => exact ⟨ni, rfl⟩
  | true =>
      simp only [Bool.not_true, Bool.false_eq_true, if_false]
      by_cases hself : name = text "."
      · rw [if_pos hself, if_pos hself]
        use mkNodeInfo px e
        apply bind_done (info_self hstatic (hpx ▸ h.getElem?_selfIdx he) H)
      rw [if_neg hself, if_neg hself]
      by_cases hup : name = text ".."
      · rw [if_pos hup, if_pos hup]
        use mkNodeInfo px (parentOf ns e)
        apply bind_done (info_up hstatic (hpx ▸ (h.getElem?_parentOf he).2) H)
      rw [if_neg hup, if_neg hup]
      obtain ⟨n, f, cs, hcs, hsib, hdown⟩ := h.info_down (p := px) hstatic
        (congrArg Crumb.selfIdx hpx) (hpx ▸ hdir) (h.hasChild he hdir)
      have hbound : (f :: cs).length ≤ entryBound := hsib.length_le
      obtain ⟨r, H', hr, hH, hfind⟩ := searchLoop_eq name hsib hbound px ni H
      rw [hH] at hr
      rw [hcs]
      use r.2.1
      apply (bind_done (hdown Heap H)).trans
      apply (bind_done hr).trans
      cases hf : (f :: cs).find? (hasName name) with
      | none =>
          rw [hf] at hfind
          rw [show r.2.2 = false from hfind]
          rfl
      | some g =>
          rw [hf] at hfind
          rw [hfind.1, hfind.2]
          rfl

/-- The loop over the names adds the crumbs of the nodes on the path to the trail. -/
theorem namesLoop_trail (h : StaticTree ns) (he : e ∈ ns) (hpx : px.crumb = e.crumb)
    (path : List Name) (ni : NodeInfo) {t : WalkTrail}
    (ht : t.crumbs.length + path.length ≤ t.max) (H : Heap) :
  namesLoop (tableFn (ns ++ [sentinel])) path px ni t H =
    .done ⟨t.max, t.crumbs ++ (Paths.trail (stepIn ns) e path).map (·.crumb)⟩ H
  := by
  induction path generalizing e px ni t with
  | nil =>
      rw [Paths.trail, List.map_nil, List.append_nil]
      rfl
  | cons name path ih =>
      obtain ⟨ni', hstep⟩ := namesLoop_step h he hpx name path ni t H
      rw [hstep]
      cases hf : stepIn ns e name with
      | none => rw [Paths.trail_of_none hf, List.map_nil, List.append_nil]
      | some f =>
          rw [List.length_cons] at ht
          have hlt : t.crumbs.length < t.max := by omega
          have hroom : (t.crumbs ++ [f.crumb]).length + path.length ≤ t.max := by
            rw [List.length_append, List.length_singleton]
            omega
          have hpx' : { px with crumb := f.crumb }.crumb = f.crumb := rfl
          have hrest := ih (stepIn_mem h.toOrdered he hf) hpx' ni'
            (t := ⟨t.max, t.crumbs ++ [f.crumb]⟩) hroom
          rw [← pushCrumb_of_lt hlt] at hrest
          apply hrest.trans
          rw [pushCrumb_of_lt hlt, Paths.trail_of_some hf, List.map_cons, List.append_assoc,
            List.singleton_append]

/-! ### `genericWalk` -/

theorem syskmalloc_granted {H : Heap} (h : H.grants H.next = true) :
  syskmalloc H = .done (some H.next) H.alloc
  := by
  rw [syskmalloc, bind_done (get_apply H), h]
  rfl

theorem syskmalloc_refused {H : Heap} (h : H.grants H.next = false) :
  syskmalloc H = .done none H.refuse
  := by
  rw [syskmalloc, bind_done (get_apply H), h]
  rfl

theorem emptyWalkTrail_granted {H : Heap} (h : H.grants H.next = true) (k : ℕ) :
  emptyWalkTrail k H = .done (some (H.next, ⟨k, []⟩)) H.alloc
  := by
  rw [emptyWalkTrail, bind_done (syskmalloc_granted h)]
  rfl

theorem emptyWalkTrail_refused {H : Heap} (h : H.grants H.next = false) (k : ℕ) :
  emptyWalkTrail k H = .done none H.refuse
  := by
  rw [emptyWalkTrail, bind_done (syskmalloc_refused h)]
  rfl

/-- A walk from a directory gives the trail of the path in a new block. -/
theorem genericWalk_trail (h : StaticTree ns) (he : e ∈ ns) (hp : p.crumb = e.crumb)
    (hdir : e.crumb.isDir) {path : List Name} (hpath : path ≠ []) (H : Heap) :
  genericWalk p path (tableFn (ns ++ [sentinel])) H =
    if H.grants H.next then
      .done (some (H.next, ⟨path.length, (Paths.trail (stepIn ns) e path).map (·.crumb)⟩)) H.alloc
    else .done none H.refuse
  := by
  have hlen : path.length ≠ 0 := by simpa using hpath
  rw [genericWalk, if_neg hlen, hp, hdir]
  cases hg : H.grants H.next with
  | false => exact bind_done (emptyWalkTrail_refused hg _)
  | true =>
      apply (bind_done (emptyWalkTrail_granted hg _)).trans
      have hroom : ([] : List Crumb).length + path.length ≤ path.length := by simp
      have hclone : (clonePortal p default).crumb = e.crumb := hp
      exact bind_done (namesLoop_trail h he hclone path default (t := ⟨path.length, []⟩) hroom
        H.alloc)

/--
A walk from a directory gives a trail, if there is memory for it.  Its crumbs are those of the nodes
to which the parts of the path lead, and it has as many as there are parts that lead to a node.
-/
theorem genericWalk_resolves (h : StaticTree ns) (he : e ∈ ns) (hdir : e.crumb.isDir)
    (hp : p.crumb = e.crumb) {path : List Name} (hpath : path ≠ []) (H : Heap) :
  if H.grants H.next then
    ∃ t, genericWalk p path (tableFn (ns ++ [sentinel])) H = .done (some (H.next, t)) H.alloc ∧
      (∀ k < path.length, t.crumbs[k]? = (resolveIn ns e (path.take (k + 1))).map (·.crumb)) ∧
      t.crumbs.length ≤ path.length ∧
      ∀ k ≤ path.length, k ≤ t.crumbs.length ↔ (resolveIn ns e (path.take k)).isSome
  else genericWalk p path (tableFn (ns ++ [sentinel])) H = .done none H.refuse
  := by
  have hrun := genericWalk_trail h he hp hdir hpath H
  cases hg : H.grants H.next with
  | false =>
      rw [hg] at hrun
      exact hrun
  | true =>
      rw [hg, if_pos rfl] at hrun
      refine ⟨_, hrun, fun k hk => ?_, ?_, fun k hk => ?_⟩
      · rw [List.getElem?_map, Paths.getElem?_trail e path hk, resolveIn]
      · rw [List.length_map]
        exact Paths.length_trail_le e path
      · rw [List.length_map]
        exact Paths.le_length_trail_iff e path hk

/-- In the root device `/bin/ls` is found, and below it nothing. -/
theorem genericWalk_resolves_ls :
  ∃ (p : Portal) (e : StaticNS) (H : Heap) (t : WalkTrail),
    p.crumb = e.crumb ∧ e ∈ rootSNS ∧
    genericWalk p [text "bin", text "ls", text "x"] (tableFn (rootSNS ++ [sentinel])) H =
      .done (some (H.next, t)) H.alloc ∧ t.crumbs.length = 2 ∧
    t.crumbs[1]? = (resolveIn rootSNS e [text "bin", text "ls"]).map (·.crumb)
  := by
  have hwalk := genericWalk_resolves (staticTree_entries .k70cw .root)
    (e := rootSNS.get ⟨0, by decide⟩) (List.get_mem _ _) (by decide)
    (p := { mkPortal 0 with crumb := (rootSNS.get ⟨0, by decide⟩).crumb }) rfl
    (List.cons_ne_nil (text "bin") [text "ls", text "x"]) ⟨fun _ => true, 0, [], nofun⟩
  obtain ⟨t, hrun, hcrumbs, -, hlength⟩ := hwalk
  refine ⟨_, _, _, t, rfl, List.get_mem _ _, hrun, Nat.le_antisymm ?_ ?_, hcrumbs 1 (by decide)⟩
  · refine Nat.le_of_lt_succ (Nat.lt_of_not_le fun hle => ?_)
    have hsome := (hlength 3 (Nat.le_refl 3)).mp hle
    revert hsome
    decide +kernel
  · refine (hlength 2 (by decide)).mpr ?_
    decide +kernel

end Dev
