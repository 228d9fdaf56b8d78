import Mathlib.Algebra.Group.Nat.Defs
import Manos.Dev.Namespace
import Manos.Lib.Exec

/-!
# Walks through the device tree

The functions of `crumb`, `portal`, `nodeinfo` and `walk`, the walk and attach functions of
the devices, and `syswalk`, as programs over the blocks that are allocated.  A portal or a
trail is a value; where it is allocated, it comes with the address of its block.
-/

namespace Dev

open Exec

/-! ### Allocation -/

/-- The blocks of `syskmalloc`, which are numbered in the order of the requests. -/
structure Heap where
  /-- whether a request is granted -/
  grants : ℕ → Bool
  /-- the number of the requests so far -/
  next : ℕ
  /-- the blocks that are not freed -/
  live : List ℕ
  live_lt : ∀ a ∈ live, a < next

/-- The heap after a request that is granted. -/
def Heap.alloc (H : Heap) : Heap where
  grants := H.grants
  next := H.next + 1
  live := H.next :: H.live
  live_lt := by
    intro a ha
    rcases List.mem_cons.mp ha with rfl | ha
    · apply Nat.lt_succ_self
    · apply Nat.lt_succ_of_lt (H.live_lt a ha)

/-- The heap after a request that is refused. -/
def Heap.refuse (H : Heap) : Heap where
  grants := H.grants
  next := H.next + 1
  live := H.live
  live_lt := fun a ha => Nat.lt_succ_of_lt (H.live_lt a ha)

/-- The heap after the block `a` is freed. -/
def Heap.free (H : Heap) (a : ℕ) : Heap where
  grants := H.grants
  next := H.next
  live := H.live.erase a
  live_lt := fun b hb => H.live_lt b (List.mem_of_mem_erase hb)

namespace Heap

variable (H : Heap) (a : ℕ)

@[simp]
theorem alloc_grants : H.alloc.grants = H.grants := rfl

@[simp]
theorem alloc_next : H.alloc.next = H.next + 1 := rfl

@[simp]
theorem alloc_live : H.alloc.live = H.next :: H.live := rfl

@[simp]
theorem refuse_live : H.refuse.live = H.live := rfl

@[simp]
theorem free_next : (H.free a).next = H.next := rfl

@[simp]
theorem free_live : (H.free a).live = H.live.erase a := rfl

end Heap

/-- `syskmalloc` -/
def syskmalloc : Exec Heap (Option ℕ) := do
  let H ← get
  if H.grants H.next then
    modify .alloc
    return some H.next
  else
    modify .refuse
    return none

/-- `syskfree` -/
def syskfree (a : ℕ) : Exec Heap Unit := do
  let H ← get
  if a ∈ H.live then modify fun H => H.free a
  else fault (.wild "block")

/-! ### Portals, node information and trails -/

/-- `Portal` -/
structure Portal where
  device : ℤ
  flags : ℕ
  crumb : Crumb
  caps : ℕ
  offset : ℕ
deriving DecidableEq

/-- A portal whose memory is zero. -/
instance : Inhabited Portal := ⟨0, 0, default, 0, 0⟩

/-- `mkPortal` -/
def mkPortal (device : ℤ) : Portal := ⟨device, 0, ⟨0, 0⟩, 0, 0⟩

/-- `clonePortal` -/
def clonePortal (p px : Portal) : Portal :=
  { px with device := p.device, crumb := p.crumb }

/-- `WalkTrail` -/
structure WalkTrail where
  max : ℕ
  /-- the crumbs, the last one at the top -/
  crumbs : List Crumb

/-- `emptyWalkTrail` -/
def emptyWalkTrail (n : ℕ) : Exec Heap (Option (ℕ × WalkTrail)) := do
  match ← syskmalloc with
  | none => return none
  | some a => return some (a, ⟨n, []⟩)

/-- `pushCrumb` -/
def pushCrumb (t : WalkTrail) (c : Crumb) : WalkTrail :=
  if t.crumbs.length ≥ t.max then t else { t with crumbs := t.crumbs ++ [c] }

/-- `topCrumb`, which leaves `c` as it is when there is none -/
def topCrumb (t : WalkTrail) (c : Crumb) : Crumb := t.crumbs.getLast?.getD c

/-- `WalkDirection` -/
inductive WalkDirection where
  | up | down | prev | next | self

/-- `NodeInfo` -/
structure NodeInfo where
  name : Name
  crumb : Crumb
  device : ℤ
  mode : ℕ
  atime : ℕ
  mtime : ℕ
  length : ℕ
  contents : Contents

/-- A variable before it is set. -/
instance : Inhabited NodeInfo := ⟨[], default, 0, 0, 0, 0, 0, .null⟩

/-- `mkNodeInfo`, with the contents that `getNodeInfoStaticNS` sets before -/
def mkNodeInfo (p : Portal) (sns : StaticNS) : NodeInfo where
  name := sns.name
  crumb := sns.crumb
  device := p.device
  mode := sns.mode
  atime := 0
  mtime := 0
  length := sns.length
  contents := sns.contents

/-! ### Static namespaces -/

section

variable {σ : Type}

/-- The entry `ns[i]`. -/
def entryAt (ns : List StaticNS) (i : ℕ) : Exec σ StaticNS :=
  match ns[i]? with
  | some sns => pure sns
  | none => fault (.wild "ns")

/-- The loop of `WalkDown` over the rest of a table. -/
def firstChild (selfIdx : ℕ) : List StaticNS → Exec σ (Option StaticNS)
  | [] => fault (.wild "ns")
  | sns :: ns =>
      if sns.crumb.parentIdx = selfIdx then pure (some sns)
      else if sns.crumb.isSentinel then pure none
      else firstChild selfIdx ns

/-- `getNodeInfoStaticNS` -/
def getNodeInfoStaticNS (p : Portal) (ns : List StaticNS) (d : WalkDirection) :
    Exec σ (Option NodeInfo) := do
  assert (p.crumb.isStatic = true) "Portal is not focuse on a StaticNS path"
  let parentIdx := p.crumb.parentIdx
  let selfIdx := p.crumb.selfIdx
  match d with
  | .up =>
      -- moving up from /.. always yields /
      let sns ← entryAt ns (if selfIdx ≠ 0 then parentIdx else selfIdx)
      return some (mkNodeInfo p sns)
  | .down =>
      if !p.crumb.isDir then return none
      return (← firstChild selfIdx (ns.drop selfIdx)).map (mkNodeInfo p)
  | .prev =>
      if selfIdx = 0 then fault (.wild "ns")
      let sns ← entryAt ns (selfIdx - 1)
      if parentIdx ≠ sns.crumb.parentIdx then return none
      return some (mkNodeInfo p sns)
  | .next =>
      let sns ← entryAt ns (selfIdx + 1)
      if parentIdx ≠ sns.crumb.parentIdx then return none
      return some (mkNodeInfo p sns)
  | .self =>
      let sns ← entryAt ns selfIdx
      return some (mkNodeInfo p sns)

end

/-- `GetNodeInfoFn` -/
abbrev GetNodeInfoFn : Type := Portal → WalkDirection → Exec Heap (Option NodeInfo)

/-! ### `genericWalk` -/

/-- The bound of the loops over the entries of a directory: an index has 16 bits. -/
def entryBound : ℕ := 2 ^ 16

/--
The loop of `genericWalk` over the entries of a directory, from the entry `nix` on, with the
variable `ni`.  The values are the portal at the last entry it looked at, the variable, and
whether that entry has the name.
-/
def searchLoop (fn : GetNodeInfoFn) (name : Name) :
    ℕ → Portal → NodeInfo → Option NodeInfo → Exec Heap (Portal × NodeInfo × Bool)
  | _, px, ni, none => pure (px, ni, false)
  | 0, _, _, some _ => fault .endless
  | k + 1, px, _, some ni => do
      let px := { px with crumb := ni.crumb }
      if name = ni.name then return (px, ni, true)
      else
        let nix ← fn px .next
        searchLoop fn name k px ni nix

/-- The loop of `genericWalk` over the names. -/
def namesLoop (fn : GetNodeInfoFn) :
    List Name → Portal → NodeInfo → WalkTrail → Exec Heap WalkTrail
  | [], _, _, t => pure t
  | name :: path, px, ni, t => do
      if !px.crumb.isDir then return t
      if name = text "." then
        let ni := (← fn px .self).getD ni
        let px := { px with crumb := ni.crumb }
        namesLoop fn path px ni (pushCrumb t px.crumb)
      else if name = text ".." then
        let ni := (← fn px .up).getD ni
        let px := { px with crumb := ni.crumb }
        namesLoop fn path px ni (pushCrumb t px.crumb)
      else
        let nix ← fn px .down
        let (px, ni, found) ← searchLoop fn name entryBound px ni nix
        if found then namesLoop fn path px ni (pushCrumb t px.crumb)
        else return t

/-- `genericWalk` -/
def genericWalk (p : Portal) (path : List Name) (fn : GetNodeInfoFn) :
    Exec Heap (Option (ℕ × WalkTrail)) := do
  if path.length = 0 then return none
  if !p.crumb.isDir then return none
  let px := clonePortal p default
  match ← emptyWalkTrail path.length with
  | none => return none
  | some (a, t) =>
      let t ← namesLoop fn path px default t
      return some (a, t)

/-! ### The functions of the devices -/

/-- `attachDev` -/
def attachDev (device : ℕ) : Exec Heap (ℕ × Portal) := do
  match ← syskmalloc with
  | none => fault (.null "p")
  | some a =>
      let p := mkPortal (fromDeviceId device)
      return (a, { p with crumb := ⟨crumbIsDir, 0⟩ })

/-- The attach function of a device that attaches at the entry `i` of its namespace. -/
def attachAt (device : ℕ) (sns : List StaticNS) (i : ℕ) : Exec Heap (ℕ × Portal) := do
  let (a, p) ← attachDev device
  let ent ← entryAt sns i
  return (a, { p with crumb := ent.crumb })

/-- `FidDate` of `devdev.c` -/
def fidDate : ℕ := 1

/-- `FidKPrint` -/
def fidKPrint : ℕ := 2

/-- `FidInterrupts` -/
def fidInterrupts : ℕ := 3

/-- The entry of `devdevSNS` that `attachDevDev` chooses. -/
def devdevEntry (path : Name) : ℕ :=
  if path = text "date" then fidDate
  else if path = text "kprint" then fidKPrint
  else if path = text "interrupts" then fidInterrupts
  else 0

/-- The entry that the attach function of a device chooses. -/
def Device.attachEntry : Device → Name → ℕ
  | .dev, path => devdevEntry path
  | _, _ => 0

/-- `attachRoot`, `attachLed` and so on -/
def Device.attach (pf : Platform) (d : Device) (path : Name) : Exec Heap (ℕ × Portal) :=
  attachAt d.id (d.sns pf) (d.attachEntry path)

/-- `rootNodeInfoFn`, `ledNodeInfoFn` and so on -/
def Device.nodeInfoFn (pf : Platform) (d : Device) : GetNodeInfoFn :=
  fun p dir => getNodeInfoStaticNS p (d.sns pf) dir

/-- `walkRoot`, `walkLed` and so on -/
def Device.walk (pf : Platform) (d : Device) (p : Portal) (path : List Name) :
    Exec Heap (Option (ℕ × WalkTrail)) :=
  genericWalk p path (d.nodeInfoFn pf)

/-- The loop of `getInfoRoot` over the entries of a directory. -/
def lengthLoop : ℕ → Portal → Option NodeInfo → ℕ → Exec Heap ℕ
  | _, _, none, length => pure length
  | 0, _, some _, _ => fault .endless
  | k + 1, px, some nip, length => do
      let px := { px with crumb := nip.crumb }
      let nix ← getNodeInfoStaticNS px (rootSNS ++ [sentinel]) .next
      lengthLoop k px nix (length + (nip.name.length + 1))

/-- `getInfoRoot`, which gives no information when it returns `-1` -/
def getInfoRoot (p : Portal) : Exec Heap (Option NodeInfo) := do
  match ← getNodeInfoStaticNS p (rootSNS ++ [sentinel]) .self with
  | none => return none
  | some ni =>
      if ni.crumb.isDir then
        let px := clonePortal p default
        let nix ← getNodeInfoStaticNS px (rootSNS ++ [sentinel]) .down
        let length ← lengthLoop entryBound px nix 0
        return some { ni with length := if length ≠ 0 then length + 1 else length }
      else return some ni

/-- `getInfoRoot`, `getInfoLed` and so on -/
def Device.getInfo (pf : Platform) (d : Device) (p : Portal) : Exec Heap (Option NodeInfo) :=
  match d with
  | .root => getInfoRoot p
  | d => getNodeInfoStaticNS p (d.sns pf) .self

/-- `deviceTable[i]` -/
def deviceAt (i : ℤ) : Exec Heap Device :=
  match if 0 ≤ i then deviceTable[i.toNat]? else none with
  | some d => pure d
  | none => fault (.wild "deviceTable")

/-! ### `syswalk` -/

/-- The text `ni.contents ? ni.contents : ""`. -/
def Contents.string : Contents → Name
  | .text s => s
  | _ => []

/--
The loop of `syswalk`, from the portal `px` in the block `a`.  Every turn that enters a mount
uses a name, so that the length of the path bounds the turns.
-/
def walkLoop (pf : Platform) : ℕ → ℕ → Portal → List Name → Exec Heap (Option (ℕ × Portal))
  | _, a, px, [] => pure (some (a, px))
  | 0, _, _, _ :: _ => fault .endless
  | k + 1, a, px, name :: names => do
      let subPath := name :: names
      let d ← deviceAt px.device
      match ← d.walk pf px subPath with
      | none => fault (.null "t")
      | some (b, t) =>
          let subPath := subPath.drop t.crumbs.length
          let px := { px with crumb := topCrumb t px.crumb }
          if px.crumb.isMount then
            match ← d.getInfo pf px with
            | none => fault (.wild "ni")
            | some ni =>
                let idx := fromDeviceId ni.length
                syskfree a
                assert (idx ≠ -1) "Crumb has an unknown device id"
                let e ← deviceAt idx
                let (a, px) ← e.attach pf ni.contents.string
                syskfree b
                walkLoop pf k a px subPath
          else
            syskfree b
            if subPath ≠ [] then
              syskfree a
              return none
            else return some (a, px)

/-- `syswalk` -/
def syswalk (pf : Platform) (p : Portal) (path : List Name) :
    Exec Heap (Option (ℕ × Portal)) := do
  if path.length > 0 ∧ p.crumb.isDir = false then return none
  match ← syskmalloc with
  | none => return none
  | some a => walkLoop pf (path.length + 1) a (clonePortal p default) path

end Dev
