import Manos.Dev.Walking

/-!
# Path resolution across mounts

Each turn of the loop of `syswalk` walks through one device and enters the mount at the end of
that walk, so that the turns together resolve the path.  The loop uses a trail that is not there
when a mount leads to a file and components are left.
-/

namespace Dev

open Exec

variable {pf : Platform} {v w : Node pf} {p px : Portal}

/-! ### Blocks -/

/-- The next `n` requests are granted. -/
def Heap.Grants (H : Heap) (n : ℕ) : Prop := ∀ k < n, H.grants (H.next + k) = true

theorem Heap.grants_zero (H : Heap) :
  H.Grants 0
  := by
  intro k hk
  contradiction

theorem Heap.grants_succ {H H' : Heap} (hg : H'.grants = H.grants) (hn : H'.next = H.next + 1)
    (n : ℕ) :
  H.Grants (1 + n) ↔ H.grants H.next = true ∧ H'.Grants n
  := by
  constructor
  · intro h
    refine ⟨h 0 (by omega), ?_⟩
    intro k hk
    rw [hg, hn, Nat.add_right_comm]
    apply h (k + 1) (by omega)
  · rintro ⟨h₀, h⟩ k hk
    cases k with
    | zero => apply h₀
    | succ k =>
        have := h k (by omega)
        rw [hg, hn, Nat.add_right_comm] at this
        apply this

theorem Heap.grants_alloc (H : Heap) (n : ℕ) :
  H.Grants (1 + n) ↔ H.grants H.next = true ∧ H.alloc.Grants n
  := Heap.grants_succ H.alloc_grants H.alloc_next n

theorem syskfree_of_mem {H : Heap} {a : ℕ} (h : a ∈ H.live) :
  syskfree a H = .done () (H.free a)
  := by
  rw [syskfree, bind_done (get_apply H)]
  apply congrFun (if_pos h) H

theorem Heap.next_notMem (H : Heap) :
  H.next ∉ H.live
  := by
  intro h
  apply Nat.lt_irrefl _ (H.live_lt H.next h)

/-! ### Mounts -/

theorem Node.mount_not_isDir (h : v.isMount = true) :
  v.isDir = false
  := ((wellFormed_entries pf v.device).mount v.entry v.mem h).1

/-- There is no step from a mount. -/
theorem Node.step_mount (v : Node pf) (name : Name) (h : v.isMount = true) :
  v.step name = none
  := Node.step_eq_none (Node.mount_not_isDir h) name

theorem fromDeviceId_of_some {id : ℕ} {d : Device} (h : deviceOfId id = some d) :
  fromDeviceId id = d.index
  := by
  have hid := List.find?_some h
  rw [Device.index, of_decide_eq_true hid]

theorem fromDeviceId_of_none {id : ℕ} (h : deviceOfId id = none) :
  fromDeviceId id = -1
  := by
  have hfind : deviceTable.findIdx? (·.id = id) = none := by
    apply List.findIdx?_eq_none_iff.mpr
    intro d hd
    have := List.find?_eq_none.mp h d hd
    simpa using this
  rw [fromDeviceId, hfind]

theorem deviceAt_index (d : Device) (H : Heap) :
  deviceAt d.index H = .done d H
  := by
  cases d <;> rfl

/-- The device of a mount is in the table. -/
theorem Node.exists_mounted (h : v.isMount = true) :
  ∃ d, deviceOfId v.entry.length = some d ∧ v.mounted = attached pf d v.entry.contents.string
  := by
  cases hd : deviceOfId v.entry.length with
  | none =>
      have := ((wellFormed_entries pf v.device).mount v.entry v.mem h).2
      exact absurd (fromDeviceId_of_none hd) this
  | some d =>
      use d, rfl
      rw [Node.mounted, hd]

/-- The node of an attach function in its namespace. -/
theorem getElem?_attached (pf : Platform) (d : Device) (path : Name) :
  (d.entries pf)[d.attachEntry path]? = some (attached pf d path).entry
  := List.getElem?_eq_getElem (attachEntry_lt d path)

/-- A device that is attached at its root is attached at a directory. -/
theorem attached_isDir {d : Device} {path : Name} (h : d.attachEntry path = 0) :
  (attached pf d path).isDir = true
  := by
  have hw := wellFormed_entries pf d
  have hget := getElem?_attached pf d path
  rw [h, List.getElem?_eq_getElem hw.pos, Option.some.injEq] at hget
  rw [Node.isDir, ← hget]
  apply hw.root.1

/-- A device is not attached at a mount. -/
theorem attached_not_isMount (d : Device) (path : Name) :
  (attached pf d path).isMount = false
  := by
  cases d with
  | dev =>
      have hall : ∀ e ∈ devdevSNS, e.crumb.isMount = false := by decide
      apply hall _ (attached pf .dev path).mem
  | _ =>
      by_contra hne
      have hmount := Node.mount_not_isDir (by simpa using hne)
      rw [attached_isDir rfl] at hmount
      cases hmount

theorem Node.mounted_not_isMount (h : v.isMount = true) :
  v.mounted.isMount = false
  := by
  obtain ⟨d, -, hd⟩ := Node.exists_mounted h
  rw [hd]
  apply attached_not_isMount

/-- The attach function of a device gives a portal at the node where it is attached. -/
theorem attach_of_granted (pf : Platform) (d : Device) (path : Name) {H : Heap}
    (h : H.grants H.next = true) :
  ∃ q, d.attach pf path H = .done (H.next, q) H.alloc ∧ At q (attached pf d path)
  := by
  have hget : (d.sns pf)[d.attachEntry path]? = some (attached pf d path).entry := by
    rw [Device.sns, List.getElem?_append_left (attachEntry_lt d path), getElem?_attached]
  have hdev : attachDev d.id H =
      .done (H.next, { mkPortal d.index with crumb := ⟨crumbIsDir, 0⟩ }) H.alloc := by
    rw [attachDev, bind_done (syskmalloc_granted h)]
    rfl
  refine ⟨{ mkPortal d.index with crumb := (attached pf d path).entry.crumb }, ?_, rfl, rfl⟩
  rw [Device.attach, attachAt, bind_done hdev]
  apply bind_done (entryAt_of_getElem? hget H.alloc)

/-- The attach functions use the memory that they ask for. -/
theorem attach_of_refused (pf : Platform) (d : Device) (path : Name) {H : Heap}
    (h : H.grants H.next = false) :
  d.attach pf path H = .stop (.null "p") H.refuse
  := by
  have hdev : attachDev d.id H = .stop (.null "p") H.refuse := by
    rw [attachDev, bind_done (syskmalloc_refused h)]
    rfl
  rw [Device.attach, attachAt, bind_stop hdev]

/-- The node information of a mount is its entry. -/
theorem getInfo_mount (hp : At p v) (h : v.isMount = true) (H : Heap) :
  v.device.getInfo pf p H = .done (some (mkNodeInfo p v.entry)) H
  := by
  have hself := Node.info_self hp.crumb H
  obtain ⟨d, e, he⟩ := v
  cases d with
  | root =>
      have hdir : (mkNodeInfo p e).crumb.isDir = false := Node.mount_not_isDir h
      apply (bind_done hself).trans
      apply congrFun (if_neg _) H
      rw [hdir]
      apply Bool.false_ne_true
  | _ => apply hself

/-! ### The turns of the loop -/

/-- The portal after a walk is at the node where the walk ended. -/
theorem At.top {path : List Name} {cs : List Crumb} (hp : At px v) (ht : Trail v path cs) :
  At { px with crumb := topCrumb ⟨path.length, cs⟩ px.crumb }
    (Paths.advance Node.step v path).1
  := by
  constructor
  · rw [ht.device]
    apply hp.device
  · rw [topCrumb, hp.crumb]
    apply ht.top

theorem walkLoop_nil (k a : ℕ) (px : Portal) (H : Heap) :
  walkLoop pf k a px [] H = .done (some (a, px)) H
  := by
  rw [walkLoop]
  rfl

/-- A turn in which the walk gives no trail uses it all the same. -/
theorem walkLoop_null {path : List Name} {a : ℕ} {H H' : Heap} (hp : At px v)
    (hpath : path ≠ []) (hwalk : v.device.walk pf px path H = .done none H') (k : ℕ) :
  walkLoop pf (k + 1) a px path H = .stop (.null "t") H'
  := by
  cases path with
  | nil => contradiction
  | cons name names =>
      rw [walkLoop, hp.device, bind_done (deviceAt_index v.device H), bind_done hwalk]
      rfl

/-- A turn whose walk does not end at a mount is the last one. -/
theorem walkLoop_last {path : List Name} {a : ℕ} {L : List ℕ} {H : Heap} (hp : At px v)
    (hv : v.isDir = true) (hpath : path ≠ []) (hH : H.grants H.next = true)
    (hlive : H.live = a :: L)
    (hend : (Paths.advance Node.step v path).1.isMount = false) (k : ℕ) :
  ∃ q H', At q (Paths.advance Node.step v path).1 ∧
    walkLoop pf (k + 1) a px path H =
      .done (if (Paths.advance Node.step v path).2 ≠ [] then none else some (a, q)) H' ∧
    H'.live = if (Paths.advance Node.step v path).2 ≠ [] then L else a :: L
  := by
  obtain ⟨cs, ht, hwalk⟩ := walk_of_granted hp hv hpath hH
  have htop := hp.top ht
  have hmount : (topCrumb ⟨path.length, cs⟩ px.crumb).isMount = false := by
    rw [← hend, Node.isMount, ← htop.crumb]
  have hfree : syskfree H.next H.alloc = .done () (H.alloc.free H.next) :=
    syskfree_of_mem List.mem_cons_self
  have hfreed : (H.alloc.free H.next).live = a :: L := by simp [hlive]
  cases path with
  | nil => contradiction
  | cons name names =>
      have hturn : walkLoop pf (k + 1) a px (name :: names) H =
          (do
            if (name :: names).drop cs.length ≠ [] then
              syskfree a
              return none
            else
              return some (a, { px with
                crumb := topCrumb ⟨(name :: names).length, cs⟩ px.crumb }) : Exec Heap _)
            (H.alloc.free H.next) := by
        rw [walkLoop, hp.device, bind_done (deviceAt_index v.device H), bind_done hwalk]
        apply (congrFun (if_neg _) H.alloc).trans
        · apply bind_done hfree
        · rw [hmount]
          apply Bool.false_ne_true
      rw [hturn, ht.rest]
      by_cases hrest : (Paths.advance Node.step v (name :: names)).2 ≠ []
      · refine ⟨_, (H.alloc.free H.next).free a, htop, ?_, ?_⟩
        · rw [if_pos hrest, if_pos hrest]
          apply (bind_done (syskfree_of_mem (by rw [hfreed]; exact List.mem_cons_self))).trans
          rfl
        · rw [if_pos hrest, Heap.free_live, hfreed, List.erase_cons_head]
      · refine ⟨_, H.alloc.free H.next, htop, ?_, ?_⟩
        · rw [if_neg hrest, if_neg hrest]
          rfl
        · rw [if_neg hrest, hfreed]

/--
A turn whose walk ends at a mount frees the portal and attaches the mounted device, before the
trail is freed and the loop goes on.
-/
theorem walkLoop_mount {path : List Name} {a : ℕ} {H : Heap} (hp : At px v)
    (hv : v.isDir = true) (hpath : path ≠ []) (hH : H.grants H.next = true) (ha : a ∈ H.live)
    (hend : (Paths.advance Node.step v path).1.isMount = true) (k : ℕ) :
  ∃ d name, (Paths.advance Node.step v path).1.mounted = attached pf d name ∧
    walkLoop pf (k + 1) a px path H =
      (do
        let (a, px) ← d.attach pf name
        syskfree H.next
        walkLoop pf k a px (Paths.advance Node.step v path).2) (H.alloc.free a)
  := by
  obtain ⟨cs, ht, hwalk⟩ := walk_of_granted hp hv hpath hH
  have htop := hp.top ht
  have hmount : (topCrumb ⟨path.length, cs⟩ px.crumb).isMount = true := by
    rw [← hend, Node.isMount, ← htop.crumb]
  obtain ⟨d, hd, hmounted⟩ := Node.exists_mounted hend
  have hinfo := getInfo_mount htop hend H.alloc
  have hfree : syskfree a H.alloc = .done () (H.alloc.free a) :=
    syskfree_of_mem (List.mem_cons_of_mem _ ha)
  have hdev : deviceAt px.device H = .done v.device H := by rw [hp.device, deviceAt_index]
  have hidx : (d.index : ℤ) ≠ -1 := by cases d <;> decide
  refine ⟨d, _, hmounted, ?_⟩
  cases path with
  | nil => contradiction
  | cons name names =>
      rw [walkLoop, bind_done hdev, bind_done hwalk]
      apply (congrFun (if_pos hmount) H.alloc).trans
      rw [ht.device] at hinfo
      apply (bind_done hinfo).trans
      apply (bind_done hfree).trans
      have hid (q : Portal) : fromDeviceId
          (mkNodeInfo q (Paths.advance Node.step v (name :: names)).1.entry).length = d.index :=
        fromDeviceId_of_some hd
      rw [hid, bind_done (assert_pos hidx _ _), bind_done (deviceAt_index d _)]
      rw [ht.rest]
      rfl

/-! ### The loop -/

/-- Some mount on the path is attached to a file, with components left. -/
def blocked (v : Node pf) (path : List Name) : Bool :=
  Paths.blocked Node.step Node.isMount Node.mounted Node.isDir v path

/-- The blocks that the walks along a path and the mounts on it need. -/
def requests (v : Node pf) (path : List Name) : ℕ :=
  Paths.visits Node.step Node.isMount Node.mounted true v path

/--
The outcome of a resolution where the blocks `L` are allocated: a portal in one more block at the
node that the path leads to, or `NULL` with no more blocks when there is no such node.
-/
def Resolved (v : Node pf) (path : List Name) (L : List ℕ)
    (o : Outcome Heap (Option (ℕ × Portal))) : Prop :=
  match resolve v path with
  | some w => ∃ a q H, o = .done (some (a, q)) H ∧ At q w ∧ H.live = a :: L ∧ a ∉ L
  | none => ∃ H, o = .done none H ∧ H.live = L

theorem Resolved.not_stop {path : List Name} {L : List ℕ} {f : Fault} {H : Heap} :
  ¬ Resolved v path L (.stop f H)
  := by
  intro h
  rw [Resolved] at h
  split at h
  · obtain ⟨_, _, _, ho, -⟩ := h
    cases ho
  · obtain ⟨_, ho, -⟩ := h
    cases ho

/-- What the loop needs: a directory to start from, no file at a mount, and memory. -/
structure Walkable (v : Node pf) (path : List Name) (H : Heap) : Prop where
  isDir : path ≠ [] → v.isDir = true
  open_ : blocked v path = false
  memory : H.Grants (requests v path)

/-- The first request of the loop, if there is one, is for a trail. -/
theorem Walkable.granted {path : List Name} {H : Heap} (h : Walkable v path H)
    (hm : v.isMount = false) (hpath : path ≠ []) :
  H.grants H.next = true
  := by
  have hmem := h.memory
  rw [requests, Paths.visits_eq Node.mounted Node.step_mount (by simp [hm]) hpath,
    H.grants_alloc] at hmem
  apply hmem.1

/-- What the loop needs after a turn that ends at a mount. -/
theorem walkable_mount {path : List Name} {H H' : Heap} (hm : v.isMount = false)
    (hv : v.isDir = true) (hpath : path ≠ [])
    (hend : (Paths.advance Node.step v path).1.isMount = true) (hg : H'.grants = H.grants)
    (hn : H'.next = H.next + 2) :
  Walkable v path H ↔ H.grants H.next = true ∧ H.grants (H.next + 1) = true ∧
    Walkable (Paths.advance Node.step v path).1.mounted (Paths.advance Node.step v path).2 H'
  := by
  have hm' : ¬ v.isMount = true := by simp [hm]
  have hb := Paths.blocked_eq Node.mounted Node.step_mount Node.isDir hm' path
  have hr := Paths.visits_eq Node.mounted Node.step_mount hm' hpath
  rw [hend, Bool.true_and] at hb
  rw [if_pos hend] at hr
  have hb' : blocked v path = false ↔
      ((Paths.advance Node.step v path).2 ≠ [] →
        (Paths.advance Node.step v path).1.mounted.isDir = true) ∧
      blocked (Paths.advance Node.step v path).1.mounted (Paths.advance Node.step v path).2 =
        false := by
    rw [blocked, hb, blocked, Bool.or_eq_false_iff]
    apply and_congr_left'
    cases (Paths.advance Node.step v path).2 with
    | nil => simp
    | cons c cs => simp
  have hg' : H.Grants (requests v path) ↔ H.grants H.next = true ∧ H.grants (H.next + 1) = true ∧
      H'.Grants (requests (Paths.advance Node.step v path).1.mounted
        (Paths.advance Node.step v path).2) := by
    have h₁ (n : ℕ) : H.alloc.Grants (1 + n) ↔ H.grants (H.next + 1) = true ∧ H'.Grants n :=
      Heap.grants_succ (H := H.alloc) hg hn n
    rw [requests, hr, H.grants_alloc, h₁, requests]
  constructor
  · rintro ⟨-, hopen, hmem⟩
    obtain ⟨hdir, hopen⟩ := hb'.mp hopen
    obtain ⟨h₀, h₁, hmem⟩ := hg'.mp hmem
    exact ⟨h₀, h₁, hdir, hopen, hmem⟩
  · rintro ⟨h₀, h₁, hdir, hopen, hmem⟩
    exact ⟨fun _ => hv, hb'.mpr ⟨hdir, hopen⟩, hg'.mpr ⟨h₀, h₁, hmem⟩⟩

/-- What the loop needs for a turn that does not end at a mount. -/
theorem walkable_last {path : List Name} {H : Heap} (hm : v.isMount = false)
    (hv : v.isDir = true) (hpath : path ≠ [])
    (hend : (Paths.advance Node.step v path).1.isMount = false) :
  Walkable v path H ↔ H.grants H.next = true
  := by
  have hm' : ¬ v.isMount = true := by simp [hm]
  have hend' : ¬ (Paths.advance Node.step v path).1.isMount = true := by simp [hend]
  have hb := Paths.blocked_eq Node.mounted Node.step_mount Node.isDir hm' path
  have hr := Paths.visits_eq Node.mounted Node.step_mount hm' hpath
  rw [hend, Bool.false_and] at hb
  rw [if_neg hend'] at hr
  constructor
  · rintro ⟨-, -, hmem⟩
    rw [requests, hr, H.grants_alloc] at hmem
    apply hmem.1
  · intro h
    refine ⟨fun _ => hv, hb, ?_⟩
    rw [requests, hr, H.grants_alloc]
    use h
    apply Heap.grants_zero

/-- The resolution of a path as a turn of the loop and what follows. -/
theorem resolve_eq_advance (hm : v.isMount = false) (path : List Name) :
  resolve v path =
    if (Paths.advance Node.step v path).1.isMount = true then
      resolve (Paths.advance Node.step v path).1.mounted (Paths.advance Node.step v path).2
    else if (Paths.advance Node.step v path).2 = [] then
      some (Paths.advance Node.step v path).1
    else none
  := Paths.resolve_eq Node.mounted Node.step_mount (by simp [hm]) path

/-- A turn that ends at a mount without memory for the next portal stops. -/
theorem walkLoop_mount_refused {path : List Name} {a k : ℕ} {H : Heap} (hp : At px v)
    (hv : v.isDir = true) (hpath : path ≠ []) (hH : H.grants H.next = true) (ha : a ∈ H.live)
    (hend : (Paths.advance Node.step v path).1.isMount = true)
    (hH' : H.grants (H.next + 1) = false) :
  ∃ f H', walkLoop pf (k + 1) a px path H = .stop f H'
  := by
  obtain ⟨d, name, -, heq⟩ := walkLoop_mount hp hv hpath hH ha hend k
  have hattach := attach_of_refused pf d name (H := H.alloc.free a) hH'
  exact ⟨_, _, heq.trans (bind_stop hattach)⟩

/-- A turn that ends at a mount goes on at the node that the mount stands for. -/
theorem walkLoop_mount_granted {path : List Name} {a k : ℕ} {L : List ℕ} {H : Heap}
    (hp : At px v) (hv : v.isDir = true) (hpath : path ≠ []) (hH : H.grants H.next = true)
    (hlive : H.live = a :: L) (hend : (Paths.advance Node.step v path).1.isMount = true)
    (hH' : H.grants (H.next + 1) = true) :
  ∃ q H', At q (Paths.advance Node.step v path).1.mounted ∧
    walkLoop pf (k + 1) a px path H =
      walkLoop pf k (H.next + 1) q (Paths.advance Node.step v path).2 H' ∧
    H'.grants = H.grants ∧ H'.next = H.next + 2 ∧ H'.live = (H.next + 1) :: L
  := by
  have ha : a ∈ H.live := by rw [hlive]; exact List.mem_cons_self
  have hne : H.next ≠ a := fun h => H.next_notMem (h ▸ ha)
  obtain ⟨d, name, hmounted, heq⟩ := walkLoop_mount hp hv hpath hH ha hend k
  obtain ⟨q, hattach, hq⟩ := attach_of_granted pf d name (H := H.alloc.free a) hH'
  have hfreed : (H.alloc.free a).live = H.next :: L := by simp [hlive, hne]
  have hfree : syskfree H.next (H.alloc.free a).alloc =
      .done () ((H.alloc.free a).alloc.free H.next) := by
    apply syskfree_of_mem
    rw [Heap.alloc_live, hfreed]
    simp
  refine ⟨q, (H.alloc.free a).alloc.free H.next, hmounted ▸ hq, ?_, rfl, rfl, ?_⟩
  · rw [heq, bind_done hattach]
    apply bind_done hfree
  · rw [Heap.free_live, Heap.alloc_live, hfreed, Heap.free_next, Heap.alloc_next]
    simp

/--
The loop resolves the path and gives back its blocks if it has what it needs, and stops
otherwise.
-/
theorem walkLoop_spec {path : List Name} {a k : ℕ} {L : List ℕ} {H : Heap}
    (hk : path.length < k) (hp : At px v) (hm : v.isMount = false) (hlive : H.live = a :: L)
    (ha : a ∉ L) :
  (Walkable v path H → Resolved v path L (walkLoop pf k a px path H)) ∧
    (¬ Walkable v path H → ∃ f H', walkLoop pf k a px path H = .stop f H')
  := by
  induction k generalizing v px path a H with
  | zero => contradiction
  | succ k ih =>
      by_cases hpath : path = []
      · subst hpath
        have hwalkable : Walkable v [] H := ⟨fun h => absurd rfl h, rfl, H.grants_zero⟩
        refine ⟨fun _ => ?_, fun h => absurd hwalkable h⟩
        rw [walkLoop_nil]
        exact ⟨a, px, H, rfl, hp, hlive, ha⟩
      cases hv : v.isDir with
      | false =>
          refine ⟨fun h => absurd (h.isDir hpath) (by simp [hv]), fun _ => ?_⟩
          refine ⟨_, _, walkLoop_null hp hpath (walk_of_not_isDir hp hv path H) k⟩
      | true =>
          cases hH : H.grants H.next with
          | false =>
              refine ⟨fun h => absurd (h.granted hm hpath) (by simp [hH]), fun _ => ?_⟩
              refine ⟨_, _, walkLoop_null hp hpath (walk_of_refused hp hv hpath hH) k⟩
          | true =>
              cases hend : (Paths.advance Node.step v path).1.isMount with
              | false =>
                  rw [walkable_last hm hv hpath hend]
                  refine ⟨fun _ => ?_, fun h => absurd hH h⟩
                  obtain ⟨q, H', hq, heq, hlive'⟩ := walkLoop_last hp hv hpath hH hlive hend k
                  rw [Resolved, resolve_eq_advance hm, hend, heq]
                  by_cases hrest : (Paths.advance Node.step v path).2 = []
                  · rw [if_neg (not_not.mpr hrest)] at hlive' ⊢
                    rw [if_neg Bool.false_ne_true, if_pos hrest]
                    exact ⟨a, q, H', rfl, hq, hlive', ha⟩
                  · rw [if_pos hrest] at hlive' ⊢
                    rw [if_neg Bool.false_ne_true, if_neg hrest]
                    exact ⟨H', rfl, hlive'⟩
              | true =>
                  cases hH' : H.grants (H.next + 1) with
                  | false =>
                      have ha' : a ∈ H.live := by rw [hlive]; exact List.mem_cons_self
                      have hgrants : H.alloc.refuse.grants = H.grants := rfl
                      rw [walkable_mount hm hv hpath hend hgrants rfl, hH']
                      refine ⟨fun h => absurd h.2.1 Bool.false_ne_true, fun _ => ?_⟩
                      apply walkLoop_mount_refused hp hv hpath hH ha' hend hH'
                  | true =>
                      obtain ⟨q, H', hq, heq, hg, hn, hlive'⟩ :=
                        walkLoop_mount_granted (k := k) hp hv hpath hH hlive hend hH'
                      have hshort := Paths.advance_shorter (by simp [hm]) hend
                      have hnext : H.next + 1 ∉ L := by
                        intro h
                        have hmem : H.next + 1 ∈ H.live := hlive ▸ List.mem_cons_of_mem a h
                        have := H.live_lt (H.next + 1) hmem
                        omega
                      have hk' : (Paths.advance Node.step v path).2.length < k := by omega
                      have hih := ih hk' hq (Node.mounted_not_isMount hend) hlive' hnext
                      rw [walkable_mount hm hv hpath hend hg hn, heq, Resolved,
                        resolve_eq_advance hm, if_pos hend]
                      refine ⟨fun h => hih.1 h.2.2, fun h => hih.2 fun h' => h ⟨hH, hH', h'⟩⟩

/-! ### `syswalk` -/

/-- The blocks that `syswalk` asks for. -/
def allocations (v : Node pf) (path : List Name) : ℕ :=
  if path ≠ [] ∧ v.isDir = false then 0 else 1 + requests v path

/-- There is no walk from a file. -/
theorem syswalk_file (hp : At p v) (hv : v.isDir = false) {path : List Name} (hpath : path ≠ [])
    (H : Heap) :
  syswalk pf p path H = .done none H ∧ blocked v path = false ∧ resolve v path = none
  := by
  obtain ⟨name, names, rfl⟩ := List.exists_cons_of_ne_nil hpath
  have hstep := Node.step_eq_none hv name
  refine ⟨?_, ?_, ?_⟩
  · rw [syswalk, if_pos ⟨List.length_pos_iff.mpr hpath, hp.isDir.trans hv⟩]
    rfl
  · rw [blocked, Paths.blocked, hstep]
  · rw [resolve, Paths.resolve, hstep]

section

variable (hp : At p v) {path : List Name} (hdir : path ≠ [] → v.isDir = true) {H : Heap}
include hp hdir

theorem syswalk_start :
  ¬ (path.length > 0 ∧ p.crumb.isDir = false)
  := by
  rintro ⟨hlen, hfile⟩
  rw [hp.isDir, hdir (List.length_pos_iff.mp hlen)] at hfile
  cases hfile

/-- Without memory for the portal there is no walk. -/
theorem syswalk_refused (hH : H.grants H.next = false) :
  syswalk pf p path H = .done none H.refuse
  := by
  rw [syswalk, if_neg (syswalk_start hp hdir)]
  apply bind_done (syskmalloc_refused hH)

/-- With memory for the portal the walk resolves the path or stops. -/
theorem syswalk_granted (hm : v.isMount = false) (hH : H.grants H.next = true) :
  (Walkable v path H.alloc → Resolved v path H.live (syswalk pf p path H)) ∧
    (¬ Walkable v path H.alloc → ∃ f H', syswalk pf p path H = .stop f H')
  := by
  have hrun : syswalk pf p path H =
      walkLoop pf (path.length + 1) H.next (clonePortal p default) path H.alloc := by
    rw [syswalk, if_neg (syswalk_start hp hdir)]
    apply bind_done (syskmalloc_granted hH)
  rw [hrun]
  exact walkLoop_spec (Nat.lt_succ_self path.length) (hp.clone default) hm H.alloc_live
    H.next_notMem

end

/-- What the walk needs besides memory for the portal. -/
theorem walkable_alloc {path : List Name} (hdir : path ≠ [] → v.isDir = true) {H : Heap} :
  Walkable v path H.alloc ↔ blocked v path = false ∧ H.alloc.Grants (requests v path)
  := ⟨fun h => ⟨h.open_, h.memory⟩, fun h => ⟨hdir, h.1, h.2⟩⟩

/--
`syswalk` gives the node that the path leads to, with everything else freed, exactly when no mount
on the path is attached to a file with components left and every request for memory is granted, or
when the first one is refused and the path leads nowhere.
-/
theorem syswalk_resolves_iff (hp : At p v) (hm : v.isMount = false) (path : List Name)
    (H : Heap) :
  Resolved v path H.live (syswalk pf p path H) ↔
    (blocked v path = false ∧ H.Grants (allocations v path)) ∨
      (H.grants H.next = false ∧ resolve v path = none)
  := by
  by_cases hfile : path ≠ [] ∧ v.isDir = false
  · -- a file as the start
    obtain ⟨hrun, hblocked, hresolve⟩ := syswalk_file hp hfile.2 hfile.1 H
    rw [hrun, Resolved, hresolve, hblocked, allocations, if_pos hfile]
    constructor
    · intro _
      exact Or.inl ⟨rfl, H.grants_zero⟩
    · intro _
      exact ⟨H, rfl, rfl⟩
  · have hdir : path ≠ [] → v.isDir = true := by
      intro hpath
      by_contra hv
      apply hfile ⟨hpath, by simpa using hv⟩
    rw [allocations, if_neg hfile, H.grants_alloc]
    cases hH : H.grants H.next with
    | false =>
        rw [syswalk_refused hp hdir hH, Resolved]
        cases hresolve : resolve v path with
        | none => simp
        | some w => simp
    | true =>
        obtain ⟨hresolved, hstops⟩ := syswalk_granted hp hdir hm hH
        rw [walkable_alloc hdir] at hresolved hstops
        constructor
        · intro hres
          by_cases hwalk : blocked v path = false ∧ H.alloc.Grants (requests v path)
          · exact Or.inl ⟨hwalk.1, rfl, hwalk.2⟩
          · obtain ⟨f, H', hstop⟩ := hstops hwalk
            rw [hstop] at hres
            exact absurd hres Resolved.not_stop
        · rintro (⟨hopen, -, hmem⟩ | ⟨h, -⟩)
          · exact hresolved ⟨hopen, hmem⟩
          · cases h

/-- A heap that grants every request. -/
def freshHeap : Heap := ⟨fun _ => true, 0, [], by simp⟩

/-- The portal at the root of the device tree. -/
def slash : Portal := ⟨Device.root.index, 0, ⟨0x82, 0x0fff0000⟩, 0, 0⟩

/-- The root of the device tree. -/
def rootNode (pf : Platform) : Node pf := attached pf .root []

theorem at_slash (pf : Platform) :
  At slash (rootNode pf)
  := by
  constructor
  · rfl
  · rfl

/-- From `/` the path `dev/led/../green` is resolved through the mount. -/
theorem syswalk_resolves_iff_green :
  Resolved (rootNode .k70cw) [text "dev", text "led", text "..", text "green"] freshHeap.live
    (syswalk .k70cw slash [text "dev", text "led", text "..", text "green"] freshHeap)
  := by
  apply (syswalk_resolves_iff (at_slash .k70cw) (by decide) _ freshHeap).mpr
  refine Or.inl ⟨by decide, fun _ _ => rfl⟩

/--
The path `/dev/date/x` goes on below a file that is mounted: the walk gives no trail, and
`syswalk` follows the null pointer.
-/
theorem syswalk_below_date :
  (∃ H, syswalk .k70cw slash [text "dev", text "date", text "x"] freshHeap =
      .stop (.null "t") H) ∧
    ¬ Resolved (rootNode .k70cw) [text "dev", text "date", text "x"] freshHeap.live
      (syswalk .k70cw slash [text "dev", text "date", text "x"] freshHeap)
  := by
  have hstop : ∃ H, syswalk .k70cw slash [text "dev", text "date", text "x"] freshHeap =
      .stop (.null "t") H := ⟨_, rfl⟩
  use hstop
  obtain ⟨H, hstop⟩ := hstop
  rw [hstop]
  apply Resolved.not_stop

end Dev
