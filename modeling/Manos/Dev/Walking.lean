import Manos.Dev.Static
import Manos.Dev.Tree

/-!
# What a walk gives

Every direction of `getNodeInfoStaticNS` from a node of the tree, the search for a name in a
directory, and `genericWalk`, whose trail has one crumb for each component it could take.
-/

namespace Dev

open Exec

variable {σ : Type} {pf : Platform} {v : Node pf} {p px : Portal}

/-- The portal `p` is at the node `v`. -/
structure At (p : Portal) (v : Node pf) : Prop where
  device : p.device = v.device.index
  crumb : p.crumb = v.entry.crumb

theorem At.clone (h : At p v) (px : Portal) :
  At (clonePortal p px) v
  := ⟨h.device, h.crumb⟩

theorem At.isDir (h : At p v) :
  p.crumb.isDir = v.isDir
  := by
  rw [h.crumb, Node.isDir]

/-! ### Node information -/

/-- An entry of the namespace of a device in its table. -/
theorem entryAt_sns (v : Node pf) (s : σ) :
  entryAt (v.device.sns pf) v.entry.crumb.selfIdx s = .done v.entry s
  := entryAt_of_getElem? ((staticTree_entries pf v.device).getElem?_selfIdx v.mem) s

theorem Node.isStatic (hp : p.crumb = v.entry.crumb) :
  p.crumb.isStatic
  := hp ▸ (wellFormed_entries pf v.device).static v.entry v.mem

theorem Node.info_self (hp : p.crumb = v.entry.crumb) (s : σ) :
  getNodeInfoStaticNS p (v.device.sns pf) .self s = .done (some (mkNodeInfo p v.entry)) s
  := Dev.info_self (Node.isStatic hp)
    (hp ▸ (staticTree_entries pf v.device).getElem?_selfIdx v.mem) s

/-! ### Trails -/

theorem Node.up_device (v : Node pf) :
  v.up.device = v.device
  := by
  rw [Node.up]
  split
  · rfl
  · rfl

theorem Node.up_entry (v : Node pf) :
  v.up.entry = parentOf (v.device.entries pf) v.entry
  := by
  rw [Node.up, parentOf]
  by_cases h : v.entry.crumb.selfIdx = 0
  · rw [dif_pos h, if_pos h]
  · rw [dif_neg h, if_neg h, List.getElem?_eq_getElem (v.parent_lt h)]
    rfl

/-- The child of a name, as the search for it finds its entry. -/
theorem Node.child_entry (v : Node pf) (name : Name) :
  (v.child name).map (·.entry) =
    (children (v.device.entries pf) v.entry.crumb.selfIdx).find? (hasName name)
  := by
  have hfind : (children (v.device.entries pf) v.entry.crumb.selfIdx).find? (hasName name) =
      (v.device.entries pf).find? fun e =>
        e.crumb.parentIdx = v.entry.crumb.selfIdx ∧ name = e.name := by
    rw [children, List.find?_filter]
    congr 1
    funext e
    simp [isChild, hasName]
  rw [hfind, Node.child]
  split
  · rename_i h
    exact h.symm
  · rename_i e h
    exact h.symm

/-- A step of the tree is a step in the namespace of the device. -/
theorem Node.step_entry (v : Node pf) (name : Name) :
  (v.step name).map (·.entry) = stepIn (v.device.entries pf) v.entry name
  := by
  rw [Node.step, stepIn, Node.isDir]
  split_ifs with hdir hself hup
  · rfl
  · rfl
  · exact congrArg some v.up_entry
  · exact v.child_entry name

/-- A step stays in the device. -/
theorem Node.step_device {w : Node pf} {name : Name} (h : v.step name = some w) :
  w.device = v.device
  := by
  rw [Node.step] at h
  split_ifs at h
  · cases h
    rfl
  · cases h
    apply Node.up_device
  · rw [Node.child] at h
    split at h
    · cases h
    · cases h
      rfl

/-- A node that is no directory has no step. -/
theorem Node.step_eq_none (h : v.isDir = false) (name : Name) :
  v.step name = none
  := by
  rw [Node.step, h]
  rfl

/-- The entries on a path are the ones in the namespace of the device. -/
theorem trail_entry (v : Node pf) (path : List Name) :
  (Paths.trail Node.step v path).map (·.entry) =
    Paths.trail (stepIn (v.device.entries pf)) v.entry path
  := by
  induction path generalizing v with
  | nil => rfl
  | cons name path ih =>
      have hentry := v.step_entry name
      cases h : v.step name with
      | none =>
          rw [h] at hentry
          rw [Paths.trail_of_none h, Paths.trail_of_none hentry.symm, List.map_nil]
      | some w =>
          rw [h] at hentry
          rw [Paths.trail_of_some h, Paths.trail_of_some hentry.symm, List.map_cons, ih w,
            Node.step_device h]

/-- What a walk from `v` along a path leaves in the trail. -/
structure Trail (v : Node pf) (path : List Name) (cs : List Crumb) : Prop where
  rest : path.drop cs.length = (Paths.advance Node.step v path).2
  top : cs.getLast?.getD v.entry.crumb = (Paths.advance Node.step v path).1.entry.crumb
  device : (Paths.advance Node.step v path).1.device = v.device

/-- The crumbs of the entries on a path. -/
theorem trail_crumbs (v : Node pf) (path : List Name) :
  Trail v path ((Paths.trail (stepIn (v.device.entries pf)) v.entry path).map (·.crumb))
  := by
  rw [← trail_entry, List.map_map]
  have hadvance : Paths.advance Node.step v path = _ := Paths.advance_eq v path
  constructor
  · rw [List.length_map, hadvance]
  · rw [hadvance, List.getLast?_map]
    cases (Paths.trail Node.step v path).getLast? with
    | none => rfl
    | some w => rfl
  · have hdevice : ∀ w w' : Node pf, ∀ name, w.device = v.device → w.step name = some w' →
        w'.device = v.device := fun w w' name hw hstep => (Node.step_device hstep).trans hw
    exact Paths.advance_induction (P := fun w : Node pf => w.device = v.device) hdevice rfl path

/-! ### `genericWalk` -/

/-- A walk from a node that is no directory gives no trail. -/
theorem walk_of_not_isDir (hp : At p v) (hv : v.isDir = false) (path : List Name) (H : Heap) :
  v.device.walk pf p path H = .done none H
  := by
  rw [Device.walk, genericWalk, hp.isDir, hv]
  split
  · rfl
  · rfl

/-- A walk from a directory that gets no memory gives no trail. -/
theorem walk_of_refused (hp : At p v) (hv : v.isDir = true) {path : List Name}
    (hpath : path ≠ []) {H : Heap} (hH : H.grants H.next = false) :
  v.device.walk pf p path H = .done none H.refuse
  := by
  have hrun := genericWalk_trail (staticTree_entries pf v.device) v.mem hp.crumb hv hpath H
  rw [hH] at hrun
  exact hrun

/-- A walk from a directory gives a trail in a new block. -/
theorem walk_of_granted (hp : At p v) (hv : v.isDir = true) {path : List Name}
    (hpath : path ≠ []) {H : Heap} (hH : H.grants H.next = true) :
  ∃ cs, Trail v path cs ∧
    v.device.walk pf p path H = .done (some (H.next, ⟨path.length, cs⟩)) H.alloc
  := by
  have hrun := genericWalk_trail (staticTree_entries pf v.device) v.mem hp.crumb hv hpath H
  rw [hH] at hrun
  exact ⟨_, trail_crumbs v path, hrun⟩

end Dev
