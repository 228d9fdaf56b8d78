import Manos.Dev.Walk
import Manos.Lib.Paths

/-!
# The device tree

The nodes of the device tree are the entries of the namespaces.  A step takes a component of a
path to a node of the same device; a mount stands for the node that the attach function of the
mounted device gives.
-/

namespace Dev

open Exec

variable {pf : Platform}

/-! ### Entries of a well-formed namespace -/

namespace WellFormed

variable {ns : List StaticNS} (hns : WellFormed ns)
include hns

theorem selfIdx_lt {e : StaticNS} (he : e ∈ ns) :
  e.crumb.selfIdx < ns.length
  := by
  obtain ⟨i, hi, rfl⟩ := List.getElem_of_mem he
  rw [hns.self i hi]
  apply hi

/-- The parent of an entry other than the root. -/
theorem parentIdx_lt {e : StaticNS} (he : e ∈ ns) (h : e.crumb.selfIdx ≠ 0) :
  e.crumb.parentIdx < e.crumb.selfIdx
  := by
  obtain ⟨i, hi, rfl⟩ := List.getElem_of_mem he
  rw [hns.self i hi] at h ⊢
  apply (hns.parent i hi (Nat.pos_of_ne_zero h)).1

end WellFormed

/-! ### Nodes -/

/-- A node of the device tree: an entry of the namespace of a device. -/
structure Node (pf : Platform) where
  device : Device
  entry : StaticNS
  mem : entry ∈ device.entries pf
deriving DecidableEq

namespace Node

def isDir (v : Node pf) : Bool := v.entry.crumb.isDir

def isMount (v : Node pf) : Bool := v.entry.crumb.isMount

theorem parent_lt (v : Node pf) (h : v.entry.crumb.selfIdx ≠ 0) :
  v.entry.crumb.parentIdx < (v.device.entries pf).length
  := by
  have hw := wellFormed_entries pf v.device
  apply (hw.parentIdx_lt v.mem h).trans (hw.selfIdx_lt v.mem)

/-- The parent of a node, where the root of a device is its own parent. -/
def up (v : Node pf) : Node pf :=
  if h : v.entry.crumb.selfIdx = 0 then v
  else ⟨v.device, (v.device.entries pf).get ⟨v.entry.crumb.parentIdx, v.parent_lt h⟩,
    List.get_mem _ _⟩

/-- The node with a name in the directory `v`. -/
def child (v : Node pf) (name : Name) : Option (Node pf) :=
  match h : (v.device.entries pf).find? fun e =>
      e.crumb.parentIdx = v.entry.crumb.selfIdx ∧ name = e.name with
  | none => none
  | some e => some ⟨v.device, e, List.mem_of_find?_eq_some h⟩

/-- One component of a path, within a device. -/
def step (v : Node pf) (name : Name) : Option (Node pf) :=
  if !v.isDir then none
  else if name = text "." then some v
  else if name = text ".." then some v.up
  else v.child name

end Node

/-- The device with an id. -/
def deviceOfId (id : ℕ) : Option Device := deviceTable.find? (·.id = id)

theorem attachEntry_lt (d : Device) (path : Name) :
  d.attachEntry path < (d.entries pf).length
  := by
  cases d with
  | dev =>
      have h : (Device.entries pf .dev).length = 4 := by rfl
      rw [h, Device.attachEntry, devdevEntry, fidDate, fidKPrint, fidInterrupts]
      split_ifs <;> decide
  | _ => apply (wellFormed_entries pf _).pos

/-- The node that the attach function of a device gives. -/
def attached (pf : Platform) (d : Device) (path : Name) : Node pf :=
  ⟨d, (d.entries pf).get ⟨d.attachEntry path, attachEntry_lt d path⟩, List.get_mem _ _⟩

/-- The node that a mount stands for. -/
def Node.mounted (v : Node pf) : Node pf :=
  match deviceOfId v.entry.length with
  | some d => attached pf d v.entry.contents.string
  | none => v

/-- The node that a path leads to, component by component, with every mount entered. -/
def resolve (v : Node pf) (path : List Name) : Option (Node pf) :=
  Paths.resolve Node.step Node.isMount Node.mounted v path

end Dev
