import Manos.Dev.Life
import Manos.Dev.Listing

/-!
# Executing a file

`sysexecv` walks to a file, or else to one of its name in `/bin`, reads it, and makes a process for
the command that its text names.  Besides the blocks of the process three are left allocated: the
elements of the path, and the path of the console with its elements.  The others that it was given
it frees (`sysexecv_makes`).
-/

namespace Dev

open Exec

/-! ### The commands -/

/-- `Cmd`, for the functions in `builtinCmds` -/
inductive Cmd where
  | cat | ls | pwd | echo | date | toast | sh | lsmem | ps | fg | fizzbuzz
deriving DecidableEq

/-- `builtinCmds` -/
def builtinCmds : List (Name × Cmd) := [
  (text "cat", .cat),
  (text "ls", .ls),
  (text "pwd", .pwd),
  (text "echo", .echo),
  (text "date", .date),
  (text "toast", .toast),
  (text "sh", .sh),
  (text "lsmem", .lsmem),
  (text "ps", .ps),
  (text "fg", .fg),
  (text "fizzbuzz", .fizzbuzz)]

/-- The loop of `sysexecv` over `builtinCmds` -/
def builtin (c : Name) : Option Cmd := (builtinCmds.find? fun x => x.1 = c).map Prod.snd

/-! ### The state -/

/-- The values of `errno` that `sysexecv` sets. -/
inductive ExecErrno where
  | ok | eperm | einval | eio
deriving DecidableEq

/-- A process that was made, and what it was made for. -/
structure Child where
  proc : Proc
  pid : ℤ
  cmd : Cmd
  argc : ℕ
  argv : List Name

/-- What `sysexecv` reads and changes. -/
structure Execv where
  /-- the files of the process that calls it -/
  files : Files
  /-- the last value that it has set -/
  errno : ExecErrno
  /-- the processes that are taken off the free list, one after another, and their pids -/
  free : ℕ → Proc × ℤ
  /-- the processes that were made -/
  made : List Child

/-- A program on the files of the process. -/
def onCaller {α : Type} (x : Exec Files α) : Exec Execv α :=
  onPart Execv.files (fun t s => { s with files := t }) x

/-- A program on the blocks. -/
def onBlocks {α : Type} (x : Exec Heap α) : Exec Execv α := onCaller (onHeap x)

/-- `errno = e` -/
def setExecErrno (e : ExecErrno) : Exec Execv Unit := modify fun s => { s with errno := e }

/-- The next process of the free list, with the heap and the devices as they are. -/
def Execv.nextProc (s : Execv) : Proc :=
  let p := (s.free s.made.length).1
  { p with files := { p.files with heap := s.files.heap, machine := s.files.machine } }

/-- `schedProc(cmd, argc, argv)` and the pid of its process -/
def startProc (pf : Platform) (cmd : Cmd) (argc : ℕ) (argv : List Name) : Exec Execv ℤ := fun s =>
  match schedProc pf s.nextProc with
  | .stop f _ => .stop f s
  | .done _ p =>
      let pid := (s.free s.made.length).2
      .done pid { s with
        files := { s.files with heap := p.files.heap, machine := p.files.machine }
        made := s.made ++ [⟨p, pid, cmd, argc, argv⟩] }

/-! ### `sysexecv` -/

/-- `CRUMB_ISFILE` is set. -/
def Crumb.isFile (c : Crumb) : Bool := c.flags &&& crumbIsFile ≠ 0

/-- `CAP_READ` -/
def capRead : ℕ := 0

/-- The loop of `sysexecv` over `argv`, with the number of the turns that are left -/
def countArgs : ℕ → List Name → ℕ
  | 0, _ => 0
  | _, [] => 0
  | k + 1, _ :: argv => countArgs k argv + 1

/-- The part of `sysexecv` that looks for a file in `/bin` -/
def searchBin (pf : Platform) (pth : Path) : Exec Execv (Option (ℕ × Portal)) := do
  let s ← get
  match ← onBlocks (syswalk pf s.files.slash.2 [text "bin"]) with
  | none =>
      setExecErrno .eio
      return none
  | some (b, pbin) =>
      match pth.names.getLast? with
      | none => fault (.wild "elems")
      | some name =>
          let r ← onBlocks (syswalk pf pbin [name])
          onBlocks (syskfree b)
          return r

/-- The part of `sysexecv` that looks for a file -/
def findFile (pf : Platform) (path : Name) (pth : Path) : Exec Execv (Option (ℕ × Portal)) := do
  let s ← get
  let isRel := path.head? ≠ some slashChar
  let start := if isRel then s.files.dot else s.files.slash
  match ← onBlocks (syswalk pf start.2 pth.names) with
  | some p => return some p
  | none => if isRel then searchBin pf pth else return none

/-- The text behind `#!`, if a text starts with it. -/
def behindBang : List Byte → Exec Execv (Option Name)
  | [] => fault (.wild "c")
  | a :: c =>
      if a ≠ 0x23 then return none
      else match c with
        | [] => fault (.wild "c")
        | b :: c => if b ≠ 0x21 then return none else return some (cstr c)

/-- The bytes of a block of `n` bytes that was zero before a read. -/
def blockBytes (buf : ℕ → Option Byte) (n : ℕ) : List Byte :=
  (List.range n).map fun i => (buf i).getD 0

/--
The part of `sysexecv` for a file that was found; the values are `ret` and the block of `buf`, if
`sysexecv` does not return at once.
-/
def execFile (pf : Platform) (hw : Hardware) (fileInfo : ℕ → Byte) (argv : List Name)
    (p : Portal) : Exec Execv (Option (ℤ × Option ℕ)) := do
  if p.crumb.isFile = false then return some (-1, none)
  else
    let d ← onBlocks (deviceAt p.device)
    match ← onBlocks (d.getInfo pf p) with
    | none => return some (-1, none)
    | some ni =>
        if ni.mode ≠ 0o555 then
          setExecErrno .eperm
          return some (-1, none)
        else
          let p := openDev p capRead
          match ← onBlocks syskmalloc with
          | none => fault (.null "buf")
          | some b =>
              match d.read pf hw fileInfo ni.length 0 ⟨p, fun _ => none⟩ with
              | .stop f _ => fault f
              | .done r t =>
                  if r = -1 then return none
                  else
                    onCaller (d.close pf t.portal)
                    match ← behindBang (blockBytes t.buf (ni.length + 1)) with
                    | none =>
                        setExecErrno .eperm
                        return some (-1, some b)
                    | some c =>
                        match builtin c with
                        | none => return some (-1, some b)
                        | some cmd =>
                            let pid ← startProc pf cmd (countArgs 256 argv) argv
                            return some (pid, some b)

/-- `sysexecv` -/
def sysexecv (pf : Platform) (hw : Hardware) (fileInfo : ℕ → Byte) (path : Option Name)
    (argv : List Name) : Exec Execv ℤ :=
  match path with
  | none => do
      setExecErrno .einval
      return -1
  | some path => do
      setExecErrno .eperm
      match ← onBlocks (mkPath path) with
      | none => return -1
      | some pth =>
          match ← findFile pf path pth with
          | none =>
              onBlocks (syskfree pth.addr)
              return -1
          | some (a, p) =>
              match ← execFile pf hw fileInfo argv p with
              | none => return -1
              | some (ret, buf) =>
                  onBlocks (syskfree pth.addr)
                  onBlocks (syskfree a)
                  match buf with
                  | none => return ret
                  | some b =>
                      onBlocks (syskfree b)
                      return ret

/-! ### The heap -/

/-- The heap after requests and calls that free blocks. -/
structure Heap.Later (H H' : Heap) : Prop where
  grants : H'.grants = H.grants
  next : H.next ≤ H'.next
  nodup : H.live.Nodup → H'.live.Nodup

instance : Std.Refl Heap.Later := ⟨fun _ => ⟨rfl, Nat.le_refl _, id⟩⟩

instance : IsTrans Heap Heap.Later :=
  ⟨fun _ _ _ h h' => ⟨h'.grants.trans h.grants, h.next.trans h'.next, h'.nodup ∘ h.nodup⟩⟩

theorem Heap.later_alloc (H : Heap) :
  H.Later H.alloc
  := ⟨rfl, Nat.le_succ _, fun h => List.nodup_cons.mpr ⟨H.next_notMem, h⟩⟩

section

variable {σ : Type} {r : σ → σ → Prop} [Std.Refl r]

theorem follows_entryAt (ns : List StaticNS) (i : ℕ) :
  Follows r (entryAt ns i : Exec σ StaticNS)
  := by
  rw [entryAt]
  split
  · exact .pure _
  · exact .fault _

theorem follows_firstChild (i : ℕ) (ns : List StaticNS) :
  Follows r (firstChild i ns : Exec σ (Option StaticNS))
  := by
  induction ns with
  | nil => exact .fault _
  | cons sns ns ih =>
      rw [firstChild]
      exact .ite (.pure _) (.ite (.pure _) ih)

variable [IsTrans σ r]

theorem follows_getNodeInfo (p : Portal) (ns : List StaticNS) (d : WalkDirection) :
  Follows r (getNodeInfoStaticNS p ns d : Exec σ (Option NodeInfo))
  := by
  refine .bind (.assert _ _) fun _ => ?_
  have hentry (i : ℕ) (f : StaticNS → Exec σ (Option NodeInfo)) (hf : ∀ sns, Follows r (f sns)) :
      Follows r (entryAt ns i >>= f) := .bind (follows_entryAt ns i) hf
  cases d with
  | up => exact hentry _ _ fun _ => .pure _
  | down => exact .ite (.pure _) (.bind (follows_firstChild _ _) fun _ => .pure _)
  | prev =>
      have hprev : Follows r (entryAt ns (p.crumb.selfIdx - 1) >>= fun sns =>
          if p.crumb.parentIdx ≠ sns.crumb.parentIdx then pure none
          else pure (some (mkNodeInfo p sns)) : Exec σ (Option NodeInfo)) :=
        hentry _ _ fun _ => .ite (.pure _) (.pure _)
      exact .ite (.bind (.fault _) fun _ => hprev) hprev
  | next => exact hentry _ _ fun _ => .ite (.pure _) (.pure _)
  | self => exact hentry _ _ fun _ => .pure _

end

theorem follows_syskmalloc :
  Follows Heap.Later syskmalloc
  := by
  intro H
  cases hH : H.grants H.next with
  | true =>
      rw [syskmalloc_granted hH]
      exact H.later_alloc
  | false =>
      rw [syskmalloc_refused hH]
      exact ⟨rfl, Nat.le_succ _, id⟩

theorem follows_syskfree (a : ℕ) :
  Follows Heap.Later (syskfree a)
  := by
  refine .bind .get fun _ => .ite (.modify fun H => ?_) (.fault _)
  exact ⟨rfl, Nat.le_refl _, fun h => h.erase a⟩

/-- The functions that look up information about a node. -/
def Informs (fn : GetNodeInfoFn) : Prop := ∀ p d, Follows Heap.Later (fn p d)

theorem follows_searchLoop {fn : GetNodeInfoFn} (hfn : Informs fn) (name : Name) (k : ℕ)
    (px : Portal) (ni : NodeInfo) (nix : Option NodeInfo) :
  Follows Heap.Later (searchLoop fn name k px ni nix)
  := by
  induction k generalizing px ni nix with
  | zero =>
      cases nix with
      | none => exact .pure _
      | some _ => exact .fault _
  | succ k ih =>
      cases nix with
      | none => exact .pure _
      | some ni' =>
          rw [searchLoop]
          exact .ite (.pure _) (.bind (hfn _ _) fun _ => ih _ _ _)

theorem follows_namesLoop {fn : GetNodeInfoFn} (hfn : Informs fn) (path : List Name) (px : Portal)
    (ni : NodeInfo) (t : WalkTrail) :
  Follows Heap.Later (namesLoop fn path px ni t)
  := by
  induction path generalizing px ni t with
  | nil => exact .pure _
  | cons name path ih =>
      rw [namesLoop]
      refine .ite (.pure _) (.ite (.bind (hfn _ _) fun _ => ih _ _ _) ?_)
      refine .ite (.bind (hfn _ _) fun _ => ih _ _ _) (.bind (hfn _ _) fun _ => ?_)
      exact .bind (follows_searchLoop hfn _ _ _ _ _) fun _ => .ite (ih _ _ _) (.pure _)

theorem follows_genericWalk {fn : GetNodeInfoFn} (hfn : Informs fn) (p : Portal)
    (path : List Name) :
  Follows Heap.Later (genericWalk p path fn)
  := by
  refine .ite (.pure _) (.ite (.pure _) (.bind (.bind follows_syskmalloc fun r => ?_) fun r => ?_))
  · cases r with
    | none => exact .pure _
    | some a => exact .pure _
  · cases r with
    | none => exact .pure _
    | some t => exact .bind (follows_namesLoop hfn _ _ _ _) fun _ => .pure _

theorem follows_attach (pf : Platform) (d : Device) (path : Name) :
  Follows Heap.Later (d.attach pf path)
  := by
  refine .bind (.bind follows_syskmalloc fun r => ?_) fun x => ?_
  · cases r with
    | none => exact .fault _
    | some a => exact .pure _
  · exact .bind (follows_entryAt _ _) fun _ => .pure _

theorem follows_lengthLoop (k : ℕ) (px : Portal) (nix : Option NodeInfo) (n : ℕ) :
  Follows Heap.Later (lengthLoop k px nix n)
  := by
  induction k generalizing px nix n with
  | zero =>
      cases nix with
      | none => exact .pure _
      | some _ => exact .fault _
  | succ k ih =>
      cases nix with
      | none => exact .pure _
      | some _ => exact .bind (follows_getNodeInfo _ _ _) fun _ => ih _ _ _

theorem follows_getInfo (pf : Platform) (d : Device) (p : Portal) :
  Follows Heap.Later (d.getInfo pf p)
  := by
  cases d with
  | root =>
      refine .bind (follows_getNodeInfo _ _ _) fun r => ?_
      cases r with
      | none => exact .pure _
      | some ni =>
          refine .ite (.bind (follows_getNodeInfo _ _ _) fun _ => ?_) (.pure _)
          exact .bind (follows_lengthLoop _ _ _ _) fun _ => .pure _
  | _ =>
      change Follows Heap.Later (getNodeInfoStaticNS p (Device.sns pf _) .self)
      exact follows_getNodeInfo _ _ _

theorem follows_deviceAt (i : ℤ) :
  Follows Heap.Later (deviceAt i)
  := by
  rw [deviceAt]
  split
  · exact .pure _
  · exact .fault _

theorem follows_walkLoop (pf : Platform) (k a : ℕ) (px : Portal) (path : List Name) :
  Follows Heap.Later (walkLoop pf k a px path)
  := by
  induction k generalizing a px path with
  | zero =>
      cases path with
      | nil => exact .pure _
      | cons name path => exact .fault _
  | succ k ih =>
      cases path with
      | nil => exact .pure _
      | cons name path =>
          refine .bind (follows_deviceAt _) fun d => ?_
          refine .bind (follows_genericWalk (fun _ _ => follows_getNodeInfo _ _ _) _ _) fun r => ?_
          cases r with
          | none => exact .fault _
          | some bt =>
              refine .ite (.bind (follows_getInfo _ _ _) fun ni => ?_) ?_
              · cases ni with
                | none => exact .fault _
                | some ni =>
                    refine .bind (follows_syskfree _) fun _ => .bind (.assert _ _) fun _ => ?_
                    refine .bind (follows_deviceAt _) fun e => ?_
                    refine .bind (follows_attach _ _ _) fun _ => ?_
                    exact .bind (follows_syskfree _) fun _ => ih _ _ _
              · refine .bind (follows_syskfree _) fun _ => ?_
                exact .ite (.bind (follows_syskfree _) fun _ => .pure _) (.pure _)

theorem follows_syswalk (pf : Platform) (p : Portal) (path : List Name) :
  Follows Heap.Later (syswalk pf p path)
  := by
  refine .ite (.pure _) (.bind follows_syskmalloc fun r => ?_)
  cases r with
  | none => exact .pure _
  | some a => exact follows_walkLoop _ _ _ _ _

theorem follows_mkPath (path : Name) :
  Follows Heap.Later (mkPath path)
  := by
  refine .bind follows_syskmalloc fun r => ?_
  cases r with
  | none => exact .pure _
  | some a =>
      refine .bind follows_syskmalloc fun r => ?_
      cases r with
      | none => exact .ite (.bind (.fault _) fun _ => .pure _) (.pure _)
      | some b => exact .pure _

section

variable {pf : Platform} {s : Execv} {v w : Node pf} {p : Portal} {H H' : Heap}

/-! ### The files of commands -/

/-- The command whose file is at a node: in `/bin` the files have the names of commands. -/
def Node.command (w : Node pf) : Option Cmd :=
  if w.device = .root ∧ w.entry.crumb.parentIdx = fidBin then builtin w.entry.name else none

/-- A regular file is neither a directory nor a mount. -/
theorem isFile_cases (h : w.entry.crumb.isFile = true) :
  w.isDir = false ∧ w.isMount = false
  := by
  have hall : ∀ d, ∀ e ∈ Device.entries pf d, e.crumb.isFile = true →
      e.crumb.isDir = false ∧ e.crumb.isMount = false := by
    intro d
    cases pf <;> cases d <;> decide
  exact hall w.device w.entry w.mem h

/-- The files that may be executed are those in `/bin`. -/
theorem executable_iff (w : Node pf) :
  (w.entry.crumb.isFile = true ∧ w.entry.mode = 0o555) ↔
    w.device = .root ∧ w.entry.crumb.parentIdx = fidBin
  := by
  obtain ⟨d, e, he⟩ := w
  dsimp only
  have hroot : ∀ e ∈ rootSNS, (e.crumb.isFile = true ∧ e.mode = 0o555) ↔
      e.crumb.parentIdx = fidBin := by decide
  have hother : d ≠ .root → ∀ e ∈ d.entries pf, ¬ (e.crumb.isFile = true ∧ e.mode = 0o555) := by
    cases pf <;> cases d <;> decide
  by_cases hd : d = .root
  · subst hd
    rw [hroot e he, and_iff_right rfl]
  · exact iff_of_false (hother hd e he) fun h => hd h.1

/-- The text of a file in `/bin` is its name behind `#!`. -/
theorem bin_contents {e : StaticNS} (he : e ∈ rootSNS) (hbin : e.crumb.parentIdx = fidBin) :
  e.contents = .text (0x23 :: 0x21 :: e.name) ∧ e.length = (0x23 :: 0x21 :: e.name : Name).length ∧
    e.name.length ≤ 8 ∧ 0 ∉ e.name ∧ ∃ cmd, builtin e.name = some cmd
  := by
  have hall : ∀ e ∈ rootSNS, e.crumb.parentIdx = fidBin →
      e.contents.text? = some (0x23 :: 0x21 :: e.name) ∧
        e.length = (0x23 :: 0x21 :: e.name : Name).length ∧ e.name.length ≤ 8 ∧ 0 ∉ e.name ∧
        (builtin e.name).isSome = true := by
    decide
  obtain ⟨htext, hlength, hshort, hzero, hcmd⟩ := hall e he hbin
  exact ⟨Contents.of_text? htext, hlength, hshort, hzero, Option.isSome_iff_exists.mp hcmd⟩

/-! ### Reading a file of a command -/

theorem blockBytes_put (s : Reading) (hs : s.buf = fun _ => none) (l : List Byte) :
  blockBytes (s.put 0 l).buf (l.length + 1) = l ++ [0]
  := by
  apply List.ext_getElem
  · simp [blockBytes]
  · intro i h _
    rw [blockBytes, List.length_map, List.length_range] at h
    simp only [blockBytes, Reading.put, List.getElem_map, List.getElem_range, Nat.zero_add,
      Nat.zero_le, true_and, Nat.sub_zero, hs]
    split
    next hlt => rw [List.getElem?_eq_getElem hlt, List.getElem_append_left hlt, Option.getD_some]
    next hlt =>
      rw [List.getElem_append_right (Nat.le_of_not_lt hlt)]
      simp

/-- The whole text of a file of the root device is read. -/
theorem readRoot_whole (hroot : w.device = .root) (hp : At p w) (hdir : w.isDir = false)
    {t : Name} (ht : w.entry.contents = .text t) (hlength : w.entry.length = t.length)
    (hpos : t ≠ []) (hsmall : t.length < 2 ^ 31) (hw : Hardware) (fileInfo : ℕ → Byte) :
  ∃ s' : Reading, blockBytes s'.buf (w.entry.length + 1) = t ++ [0] ∧
    w.device.read pf hw fileInfo w.entry.length 0 ⟨p, fun _ => none⟩ = .done (t.length : ℤ) s'
  := by
  have hent (s : Reading) : entryAt (w.device.sns pf) p.crumb.selfIdx s = .done w.entry s :=
    hp.crumb ▸ entryAt_sns w s
  rw [hroot] at hent
  have hne : t.length ≠ 0 := fun h => hpos (List.length_eq_zero_iff.mp h)
  have hnot : ¬ w.entry.crumb.isDir = true := by
    rw [show w.entry.crumb.isDir = false from hdir]
    exact Bool.false_ne_true
  have htake (s : Reading) : (Contents.text t).take t.length s = .done t s := by
    rw [Contents.take, if_pos (Nat.le_succ _), List.take_left]
    rfl
  refine ⟨{ Reading.put ⟨p, fun _ => none⟩ 0 t with
    portal := { p with offset := (p.offset + t.length) % 2 ^ 32 } }, ?_, ?_⟩
  · rw [hlength]
    exact blockBytes_put ⟨p, fun _ => none⟩ rfl t
  · rw [hroot, Device.read, readRoot, readStaticNS, hlength, if_neg hne, bind_done (get_apply _),
      bind_done (hent _), if_neg hnot, hlength, if_neg hne,
      if_neg (Nat.lt_irrefl _), ht, bind_done (htake _), bind_done (copy_eq _ _ _)]
    rw [← (ptrdiff_of_lt hsmall : ptrdiff pf t.length = t.length)]
    rfl

/-! ### The processes that are made -/

/-- A heap that grants every request, with no block twice in its list. -/
structure Heap.Granting (H : Heap) : Prop where
  grants : ∀ n, H.grants n = true
  nodup : H.live.Nodup

theorem Heap.Later.granting (h : H.Later H') (hH : H.Granting) :
  H'.Granting
  := ⟨fun n => (congrFun h.grants n).trans (hH.grants n), h.nodup hH.nodup⟩

/-- The heap of the files after requests and calls that free blocks. -/
def Files.Later (s s' : Files) : Prop := s.heap.Later s'.heap

instance : Std.Refl Files.Later := ⟨fun s => refl_of Heap.Later s.heap⟩

instance : IsTrans Files Files.Later := ⟨fun _ _ _ => trans_of Heap.Later⟩

theorem follows_onHeap {α : Type} {x : Exec Heap α} (h : Follows Heap.Later x) :
  Follows Files.Later (onHeap x)
  := by
  intro s
  have hs := h s.heap
  rw [Files.Later, onHeap, onPart]
  cases hx : x s.heap with
  | done a t =>
      rw [hx] at hs
      exact hs
  | stop f t =>
      rw [hx] at hs
      exact hs

theorem follows_setFiles {f : Files → Files} (hf : ∀ s, (f s).heap = s.heap) :
  Follows Files.Later (modify f)
  := by
  refine .modify fun s => ?_
  rw [Files.Later, hf]
  exact refl_of Heap.Later s.heap

theorem follows_sysopen (pf : Platform) (path : Name) (caps : ℕ) :
  Follows Files.Later (sysopen pf path caps)
  := by
  have hfree (a : ℕ) : Follows Files.Later (onHeap (syskfree a)) :=
    follows_onHeap (follows_syskfree a)
  refine .bind (follows_setFiles fun _ => rfl) fun _ => ?_
  refine .bind (follows_onHeap (follows_mkPath path)) fun r => ?_
  cases r with
  | none => exact .pure _
  | some pth =>
      refine .bind .get fun s => .bind (follows_onHeap (follows_syswalk pf _ _)) fun r => ?_
      cases r with
      | none => exact .bind (hfree _) fun _ => .pure _
      | some ap =>
          refine .bind .get fun s => ?_
          cases firstFree s.table with
          | none =>
              refine .bind (follows_setFiles fun _ => rfl) fun _ => .bind (hfree _) fun _ => ?_
              exact .bind (hfree _) fun _ => .pure _
          | some fd =>
              refine .bind (follows_onHeap (follows_deviceAt _)) fun _ => ?_
              exact .bind (follows_setFiles fun _ => rfl) fun _ => .pure _

theorem follows_openPortals (pf : Platform) :
  Follows Files.Later (openPortals pf)
  := by
  have hattach : Follows Files.Later (onHeap (Device.root.attach pf [])) :=
    follows_onHeap (follows_attach pf .root [])
  refine .bind hattach fun _ => .bind (follows_setFiles fun _ => rfl) fun _ => ?_
  refine .bind hattach fun _ => ?_
  exact .bind (follows_setFiles fun _ => rfl) fun _ => follows_sysopen pf _ _

/-- The variables of a process that hold blocks. -/
inductive Part where
  | file (i : Holder)
  | stack
  | pgrp

/-- The block that a variable of a process holds. -/
def Proc.block (p : Proc) : Part → Option ℕ
  | .file i => p.files.held i
  | .stack => p.stack
  | .pgrp => p.pgrp.map ProcGroup.addr

/-- The blocks of a process: those of its portals, of its stack and of its group. -/
def Proc.blocks (p : Proc) : Set ℕ := {a | ∃ i, p.block i = some a}

/--
The blocks that are allocated afterwards are those from before, those of `own`, and `n` more, which
were not allocated before and are not among those of `own`.
-/
def Leaves (n : ℕ) (own : Set ℕ) (H H' : Heap) : Prop :=
  ∃ leaked : Finset ℕ, leaked.card = n ∧ (∀ a ∈ leaked, a ∉ H.live ∧ a ∉ own) ∧
    ∀ a, a ∈ H'.live ↔ a ∈ H.live ∨ a ∈ own ∨ a ∈ leaked

/--
A process that was made of `p₀`, which was on the free list, when the blocks of `H` were allocated.
Its portals are at nodes, and of its descriptors the one of its console is open.  Its variables hold
different blocks, and all of them are new but that of the stack, if it had one.
-/
structure NewProc (pf : Platform) (p₀ : Proc) (H : Heap) (p : Proc) : Prop where
  files : p.files.Inv pf p.blocks
  tty : p.tty = 0
  opened : ∀ fd, p.files.table fd ≠ none ↔ fd = 0
  stack : p.stack ≠ none ∧ ∀ a, p₀.stack = some a → p.stack = some a
  pgrp : ∃ g, p.pgrp = some ⟨g, 1⟩
  distinct : Slots.Distinct p.block {a | a ∈ p.files.heap.live}
  new : ∀ a ∈ p.blocks, a ∈ H.live → p₀.stack = some a

/-- With memory for everything the console is opened, and the path and its elements are left. -/
theorem openPortals_granted (pf : Platform) {s : Files} (hs : s.heap.Granting)
    (htable : s.table = fun _ => none) :
  ∃ (n a : ℕ) (q : Portal) (s' : Files), openPortals pf s = .done 0 s' ∧ s'.heap.Granting ∧
    s'.slash.1 = n ∧ s'.dot.1 = n + 1 ∧ s'.table = Function.update s.table 0 (some (a, q)) ∧
    s'.heap.live = a :: (n + 3) :: (n + 2) :: (n + 1) :: n :: s.heap.live
  := by
  obtain ⟨q, q', r, s', hrun, hopened⟩ := openPortals_opened pf hs.grants
  have hgranting := ((follows_openPortals pf).done hrun).granting hs
  have hfirst : firstFree s.table = some 0 := firstFree_eq_some_iff.mpr
    ⟨by decide, congrFun htable 0, fun j hj => absurd hj (Nat.not_lt_zero j)⟩
  have htty : (resolve (rootNode pf) (pathNames (ttyPath pf))).isSome = true := by
    cases pf <;> decide
  cases hopened with
  | refused H e hlive hwhy =>
      obtain h | h | h | h := hwhy
      · exact absurd ((hs.grants _).symm.trans h) Bool.noConfusion
      · exact absurd ((hs.grants _).symm.trans h) Bool.noConfusion
      · exact absurd (h ▸ htty) Bool.noConfusion
      · exact absurd (hfirst.symm.trans h) (Option.some_ne_none 0)
  | opened H fd a p w hfd hnode hp hpath hportal hlive ha =>
      obtain rfl : 0 = fd := Option.some.inj (hfirst.symm.trans hfd)
      have hblock : elemsBlock s.heap.alloc.alloc = [s.heap.alloc.alloc.next + 1] :=
        if_pos ⟨hs.grants _, hs.grants _⟩
      refine ⟨s.heap.next, a, openDev p capReadWrite, _, hrun, hgranting, rfl, rfl, rfl, ?_⟩
      change H.live = _
      rw [hlive, hblock]
      rfl

theorem mustAlloc_granted (what : String) {q : Proc} (hq : q.files.heap.Granting) :
  mustAlloc what q = .done q.files.heap.next
    { q with files := { q.files with heap := q.files.heap.alloc } }
  := by
  have hH := hq.grants q.files.heap.next
  rw [mustAlloc, bind_done (onFiles_done (onHeap_done (syskmalloc_granted hH)))]
  rfl

/-- A process that has no stack gets a new one. -/
theorem newStack_granted {q : Proc} (hq : q.files.heap.Granting) (hfree : q.OnFreelist) :
  ∃ H b, newStack q = .done () { q with files := { q.files with heap := H }, stack := some b } ∧
    H.Granting ∧ b ∈ H.live ∧ (∀ a, a ∈ H.live ↔ a ∈ q.files.heap.live ∨ a = b) ∧
    (b ∈ q.files.heap.live → q.stack = some b) ∧ ∀ a, q.stack = some a → b = a
  := by
  rw [newStack, bind_done (get_apply q)]
  cases hb : q.stack with
  | some b =>
      have hlive := hfree.stack b hb
      refine ⟨q.files.heap, b, ?_, hq, hlive, fun a => ?_, fun _ => rfl, fun a => Option.some.inj⟩
      · change Outcome.done () q = _
        rw [← hb]
      · exact ⟨.inl, fun h => h.elim id fun h => h ▸ hlive⟩
  | none =>
      refine ⟨q.files.heap.alloc, q.files.heap.next, bind_done (mustAlloc_granted "stack" hq),
        (Heap.later_alloc _).granting hq, List.mem_cons_self, fun a => ?_, fun h => ?_,
        fun a h => absurd h (Option.some_ne_none a).symm⟩
      · exact List.mem_cons.trans or_comm
      · exact absurd h q.files.heap.next_notMem

/-- With memory for everything a process is made, and two blocks are left besides its own. -/
theorem schedProc_granted (pf : Platform) {q : Proc} (hq : q.files.heap.Granting)
    (hfree : q.OnFreelist) :
  ∃ p, schedProc pf q = .done () p ∧ p.files.heap.Granting ∧ NewProc pf q q.files.heap p ∧
    Leaves 2 p.blocks q.files.heap p.files.heap
  := by
  obtain ⟨H, b, hstack, hH, hb, hlive, hold, hkept⟩ := newStack_granted hq hfree
  have hnew : newProc q = .done () { q with
      files := { q.files with heap := H.alloc }
      stack := some b
      pgrp := some ⟨H.next, 1⟩ } := by
    rw [newProc, bind_done hstack]
    exact bind_done (mustAlloc_granted "pgrp" hH)
  obtain ⟨n, a, portal, s, hopen, hs, hslash, hdot, htable, hs'⟩ :=
    openPortals_granted pf (s := { q.files with heap := H.alloc })
      ((Heap.later_alloc _).granting hH) hfree.table
  generalize hp : ({ q with
    files := s, tty := 0, stack := some b, pgrp := some ⟨H.next, 1⟩ } : Proc) = p
  have hrun : schedProc pf q = .done () p := by
    rw [← hp, schedProc, bind_done hnew]
    exact bind_done (onFiles_done hopen)
  have hfiles := (schedProc_inv hfree hrun).files
  have hlist : s.heap.live = a :: (n + 3) :: (n + 2) :: (n + 1) :: n :: H.next :: H.live := hs'
  have hnodup := hlist ▸ hs.nodup
  have hfresh : H.next ∉ H.live := H.next_notMem
  let l : List (Part × ℕ) := [(.file .slash, n), (.file .dot, n + 1), (.file (.descriptor 0), a),
    (.stack, b), (.pgrp, H.next)]
  have hblock (i : Part) (d : ℕ) : p.block i = some d ↔ (i, d) ∈ l := by
    rw [← hp]
    rcases i with (_ | _ | fd) | _ | _
    · simp [l, Proc.block, Files.held, hslash, eq_comm]
    · simp [l, Proc.block, Files.held, hdot, eq_comm]
    · by_cases hfd : fd = 0
      · simp [l, Proc.block, Files.held, htable, hfree.table, hfd, eq_comm]
      · simp [l, Proc.block, Files.held, htable, hfree.table, hfd]
    · simp [l, Proc.block, eq_comm]
    · simp [l, Proc.block, eq_comm]
  have hblocks (d : ℕ) : d ∈ p.blocks ↔ d = n ∨ d = n + 1 ∨ d = a ∨ d = b ∨ d = H.next := by
    simp [Proc.blocks, hblock, l, exists_or]
  have hpart : (l.map Prod.snd).Nodup := by
    simp only [List.nodup_cons, List.mem_cons, not_or] at hnodup
    simp [l]
    grind
  have hdistinct : Slots.Distinct p.block {a | a ∈ p.files.heap.live} := by
    refine (Slots.Distinct.of_pairs hpart fun i d => (hblock i d).mp).mono fun i d hi _ => ?_
    have hd := (hblocks d).mp ⟨i, hi⟩
    rw [← hp]
    change d ∈ s.heap.live
    rw [hlist]
    grind
  have hheld (i : Holder) : p.block (.file i) = p.files.held i := rfl
  have hall : p.files.heap.live = a :: (n + 3) :: (n + 2) :: (n + 1) :: n :: H.next :: H.live := by
    rw [← hp, ← hlist]
  refine ⟨p, hrun, hp ▸ hs, ?_, {n + 3, n + 2}, ?_, fun d hd => ?_, fun d => ?_⟩
  · refine ⟨⟨hfiles.slash, hfiles.dot, hfiles.nodes, hfiles.bound, fun i d hi => ?_, ?_⟩, ?_, ?_, ?_,
      ?_, hdistinct, fun d hd hlived => ?_⟩
    · exact ⟨⟨.file i, hi⟩, hdistinct.mem (.file i) d hi⟩
    · intro i j d hi hj
      cases hdistinct.inj (.file i) (.file j) d hi hj
      rfl
    · rw [← hp]
    · intro fd
      rw [← hp, htable, hfree.table]
      by_cases hfd : fd = 0
      · rw [hfd, Function.update_self]
        exact iff_of_true (Option.some_ne_none _) rfl
      · rw [Function.update_of_ne hfd]
        exact iff_of_false (not_not_intro rfl) hfd
    · rw [← hp]
      exact ⟨Option.some_ne_none b, fun d hd => congrArg some (hkept d hd)⟩
    · rw [← hp]
      exact ⟨_, rfl⟩
    -- the only one of its blocks that may be old is the stack
    · have hd' := (hblocks d).mp hd
      have hlive' := (hlive d).mpr (.inl hlived)
      have hdb : d = b := by grind
      exact hdb ▸ hold (hdb ▸ hlived)
  · exact Finset.card_pair (by omega)
  · rw [Finset.mem_insert, Finset.mem_singleton] at hd
    rw [hblocks]
    have hnot : d ∉ H.live := by grind
    refine ⟨fun h => hnot ((hlive d).mpr (.inl h)), ?_⟩
    grind
  · rw [Finset.mem_insert, Finset.mem_singleton, hall, hblocks]
    have hd := hlive d
    grind

/-- The process that is taken off the free list next is one on it. -/
def Execv.Ready (s : Execv) : Prop := s.nextProc.OnFreelist

/-- The state after a process was made. -/
def Execv.after (s : Execv) (child : Proc) (cmd : Cmd) (argc : ℕ) (argv : List Name) : Execv :=
  { s with
    files := { s.files with heap := child.files.heap, machine := child.files.machine }
    made := s.made ++ [⟨child, (s.free s.made.length).2, cmd, argc, argv⟩] }

/-- What `schedProc` makes of the next process of the free list. -/
structure Launches (pf : Platform) (s : Execv) (child : Proc) : Prop where
  made : NewProc pf (s.free s.made.length).1 s.files.heap child
  granting : child.files.heap.Granting
  leaves : Leaves 2 child.blocks s.files.heap child.files.heap

theorem startProc_granted (hs : s.files.heap.Granting) (hfree : s.Ready) (cmd : Cmd) (argc : ℕ)
    (argv : List Name) :
  Returns s (startProc pf cmd argc argv) fun r s' => r = (s.free s.made.length).2 ∧
    ∃ child, Launches pf s child ∧ s' = s.after child cmd argc argv
  := by
  obtain ⟨child, hrun, hgranting, hmade, hleaves⟩ := schedProc_granted pf (q := s.nextProc) hs hfree
  have hmade : NewProc pf (s.free s.made.length).1 s.files.heap child := { hmade with }
  refine ⟨_, s.after child cmd argc argv, ?_, rfl, child, ⟨hmade, hgranting, hleaves⟩, rfl⟩
  rw [startProc, hrun]
  rfl

/-! ### Finding a file -/

/-- The state with another heap. -/
def Execv.setHeap (s : Execv) (H : Heap) : Execv :=
  { s with files := { s.files with heap := H } }

theorem onBlocks_done {α : Type} {x : Exec Heap α} {r : α} (h : x s.files.heap = .done r H) :
  onBlocks x s = .done r (s.setHeap H)
  := by
  rw [onBlocks, onCaller, onPart, onHeap_done h]
  rfl

theorem onBlocks_stop {α : Type} {x : Exec Heap α} {f : Fault} (h : x s.files.heap = .stop f H) :
  onBlocks x s = .stop f (s.setHeap H)
  := by
  rw [onBlocks, onCaller, onPart, onHeap_stop h]
  rfl

/-- What is found at the end of a walk: a portal in one more block, if there is a node. -/
def Found (o : Option (Node pf)) (H : Heap) (r : Option (ℕ × Portal)) (H' : Heap) : Prop :=
  match o with
  | none => r = none ∧ H'.live = H.live
  | some w => ∃ a p, r = some (a, p) ∧ At p w ∧ H'.live = a :: H.live ∧ a ∉ H.live

section

variable {o : Option (Node pf)} {r : Option (ℕ × Portal)} {H₁ : Heap} {a : ℕ}

theorem Found.congr (h : Found o H₁ r H') (hlive : H₁.live = H.live) :
  Found o H r H'
  := by
  rw [Found.eq_def, ← hlive]
  exact h

/-- What was allocated before stays so. -/
theorem Found.mem (h : Found o H r H') (ha : a ∈ H.live) :
  a ∈ H'.live
  := by
  cases o with
  | none => exact h.2 ▸ ha
  | some w =>
      obtain ⟨b, p, -, -, hlive, -⟩ := h
      exact hlive ▸ List.mem_cons_of_mem b ha

/-- A block from before the walk may be freed after it. -/
theorem Found.free (h : Found o H₁ r H') (hlive : H₁.live = a :: H.live) :
  Found o H r (H'.free a)
  := by
  cases o with
  | none =>
      refine ⟨h.1, ?_⟩
      rw [Heap.free_live, h.2, hlive, List.erase_cons_head]
  | some w =>
      obtain ⟨b, p, hr, hp, hlive', hb⟩ := h
      rw [hlive] at hlive' hb
      have hne : b ≠ a := fun heq => hb (heq ▸ List.mem_cons_self)
      refine ⟨b, p, hr, hp, ?_, fun hmem => hb (List.mem_cons_of_mem a hmem)⟩
      rw [Heap.free_live, hlive', List.erase_cons_tail (by simpa using hne), List.erase_cons_head]

end

/-- With memory for everything a walk returns, unless a mount is in the way. -/
theorem syswalk_found (hp : At p v) (hm : v.isMount = false) {names : List Name}
    (hopen : blocked v names = false) (hH : H.Granting) :
  Returns H (syswalk pf p names) fun r H' => H'.Granting ∧ Found (resolve v names) H r H'
  := by
  have hwalks : Walks v names H := .inl ⟨hopen, fun _ _ => hH.grants _⟩
  obtain ⟨r, H', hrun, hwalked⟩ := (syswalk_spec hp hm names H).1 hwalks
  refine ⟨r, H', hrun, ((follows_syswalk pf p names).done hrun).granting hH, ?_⟩
  cases r with
  | none =>
      obtain ⟨hwhy, hlive⟩ := hwalked
      have hnone : resolve v names = none := hwhy.resolve_left (by
        rw [hH.grants]
        exact Bool.noConfusion)
      rw [hnone]
      exact ⟨rfl, hlive⟩
  | some ap =>
      obtain ⟨a, q⟩ := ap
      obtain ⟨-, ⟨w, hw, hq⟩, hlive, ha⟩ := hwalked
      rw [hw]
      exact ⟨a, q, rfl, hq, hlive, ha⟩

/-- The directory `/bin`. -/
theorem exists_bin (pf : Platform) :
  ∃ bin : Node pf, resolve (rootNode pf) [text "bin"] = some bin ∧
    blocked (rootNode pf) [text "bin"] = false ∧ bin.isMount = false ∧
    ∀ name, resolve (rootNode pf) [text "bin", name] = resolve bin [name]
  := by
  have hdone : ∃ bin : Node pf, (rootNode pf).step (text "bin") = some bin ∧
      bin.isMount = false := by
    cases pf
    · exact ⟨_, rfl, rfl⟩
    · exact ⟨_, rfl, rfl⟩
  obtain ⟨bin, hstep, hm⟩ := hdone
  have hresolve (names : List Name) :
      resolve (rootNode pf) (text "bin" :: names) = resolve bin names := by
    have hentered : Paths.entered Node.isMount Node.mounted bin = bin := by
      rw [Paths.entered, hm, if_neg Bool.false_ne_true]
    rw [resolve, Paths.resolve, hstep]
    dsimp only
    rw [hentered, resolve]
  refine ⟨bin, hresolve [], ?_, hm, fun name => hresolve [name]⟩
  rw [blocked, Paths.blocked, hstep]
  simp [hm, Paths.blocked]

/-- A path of one component is not blocked. -/
theorem blocked_singleton (v : Node pf) (name : Name) :
  blocked v [name] = false
  := by
  rw [blocked, Paths.blocked]
  split
  · rfl
  · simp [Paths.blocked]

/-- The node from which a path starts. -/
def startNode (v : Node pf) (path : Name) : Node pf :=
  if path.head? = some slashChar then rootNode pf else v

/-- The file that is executed for a path: the one to which its elements lead, or else, for a path
that does not start at `/`, the one in `/bin` with the last element as its name. -/
def executed (v : Node pf) (path : Name) : Option (Node pf) :=
  match resolve (startNode v path) (pathNames path) with
  | some w => some w
  | none =>
      if path.head? = some slashChar then none
      else (pathNames path).getLast?.bind fun name =>
        resolve (rootNode pf) [text "bin", name]

theorem onBlocks_returns {α : Type} {x : Exec Heap α} {Q : α → Heap → Prop}
    (h : Returns s.files.heap x Q) :
  Returns s (onBlocks x) fun r s' => ∃ H, Q r H ∧ s' = s.setHeap H
  := by
  obtain ⟨r, H, hx, hQ⟩ := h
  exact ⟨r, _, onBlocks_done hx, H, hQ, rfl⟩

theorem searchBin_found (hslash : At s.files.slash.2 (rootNode pf)) (hs : s.files.heap.Granting)
    {pth : Path} {name : Name} (hname : pth.names.getLast? = some name) :
  Returns s (searchBin pf pth) fun r s' => ∃ H, s' = s.setHeap H ∧ H.Granting ∧
    Found (resolve (rootNode pf) [text "bin", name]) s.files.heap r H
  := by
  obtain ⟨bin, hbin, hopen, hm, hresolve⟩ := exists_bin pf
  have hwalk := syswalk_found hslash (rootNode_not_isMount pf) hopen hs
  refine .get (.bind (onBlocks_returns hwalk) ?_)
  rintro r _ ⟨H₁, ⟨hH₁, hfound⟩, rfl⟩
  rw [hbin] at hfound
  obtain ⟨b, pbin, rfl, hpbin, hlive₁, hb⟩ := hfound
  rw [hname]
  have hfound' : Returns (s.setHeap H₁).files.heap (syswalk pf pbin [name]) fun r H' =>
      H'.Granting ∧ Found (resolve bin [name]) H₁ r H' :=
    syswalk_found hpbin hm (blocked_singleton bin name) hH₁
  refine .bind (onBlocks_returns hfound') ?_
  rintro r _ ⟨H₂, ⟨hH₂, hfound₂⟩, rfl⟩
  rw [hresolve]
  have hmem : b ∈ H₂.live := hfound₂.mem (hlive₁ ▸ List.mem_cons_self)
  have hrun := syskfree_of_mem hmem
  refine .step (onBlocks_done hrun) (.pure ⟨H₂.free b, rfl, ?_, hfound₂.free hlive₁⟩)
  exact ((follows_syskfree b).done hrun).granting hH₂

/-- The portal from which a path starts is at its node, which is no mount. -/
theorem at_start (path : Name) (hdot : At s.files.dot.2 v) (hm : v.isMount = false)
    (hslash : At s.files.slash.2 (rootNode pf)) :
  At (if path.head? ≠ some slashChar then s.files.dot else s.files.slash).2 (startNode v path) ∧
    (startNode v path).isMount = false
  := by
  by_cases h : path.head? = some slashChar
  · rw [startNode, if_pos h, if_neg (not_not_intro h)]
    exact ⟨hslash, rootNode_not_isMount pf⟩
  · rw [startNode, if_neg h, if_pos h]
    exact ⟨hdot, hm⟩

/-- With memory for everything the file that is executed is found. -/
theorem findFile_found {path : Name} {pth : Path} (hdot : At s.files.dot.2 v)
    (hm : v.isMount = false) (hslash : At s.files.slash.2 (rootNode pf))
    (hs : s.files.heap.Granting) (hnames : pth.names = pathNames path)
    (hopen : blocked (startNode v path) (pathNames path) = false) :
  Returns s (findFile pf path pth) fun r s' => ∃ H, s' = s.setHeap H ∧ H.Granting ∧
    Found (executed v path) s.files.heap r H
  := by
  obtain ⟨hstart, hmount⟩ := at_start path hdot hm hslash
  have hwalk := syswalk_found hstart hmount hopen hs
  rw [← hnames] at hwalk
  refine .get (.bind (onBlocks_returns hwalk) ?_)
  rintro r _ ⟨H₁, ⟨hH₁, hfound⟩, rfl⟩
  rw [executed, ← hnames]
  cases hr : resolve (startNode v path) pth.names with
  | some w =>
      rw [hr] at hfound
      obtain ⟨a, p, rfl, hp, hlive, ha⟩ := hfound
      exact .pure ⟨H₁, rfl, hH₁, a, p, rfl, hp, hlive, ha⟩
  | none =>
      rw [hr] at hfound
      obtain ⟨rfl, hlive⟩ := hfound
      by_cases h : path.head? = some slashChar
      · rw [if_pos h]
        refine ⟨none, _, congrFun (if_neg (not_not_intro h)) _, H₁, rfl, hH₁, rfl, hlive⟩
      · rw [if_neg h]
        have hne : pth.names ≠ [] := by
          intro hnil
          rw [hnil] at hr
          exact absurd hr (Option.some_ne_none _)
        have hlast := List.getLast?_eq_some_getLast hne
        have hbin := searchBin_found (s := s.setHeap H₁) hslash hH₁ hlast
        rw [hlast, Option.bind_some]
        obtain ⟨r, s', hrun, H₂, rfl, hH₂, hfound₂⟩ := hbin
        exact ⟨r, _, (congrFun (if_pos h) _).trans hrun, H₂, rfl, hH₂, hfound₂.congr hlive⟩

/-! ### Executing a file -/

theorem countArgs_eq (k : ℕ) (argv : List Name) :
  countArgs k argv = min k argv.length
  := by
  induction k generalizing argv with
  | zero => rw [countArgs, Nat.zero_min]
  | succ k ih =>
      cases argv with
      | nil => rfl
      | cons a argv => rw [countArgs, ih, List.length_cons, Nat.succ_min_succ]

/-- The node information of a file is its entry. -/
theorem getInfo_file (hp : At p w) (hdir : w.isDir = false) (H : Heap) :
  w.device.getInfo pf p H = .done (some (mkNodeInfo p w.entry)) H
  := by
  have hself := Node.info_self hp.crumb H
  obtain ⟨d, e, he⟩ := w
  cases d with
  | root =>
      have hnot : ¬ (mkNodeInfo p e).crumb.isDir = true := by
        rw [show (mkNodeInfo p e).crumb.isDir = false from hdir]
        exact Bool.false_ne_true
      exact (bind_done hself).trans (congrFun (if_neg hnot) H)
  | _ => exact hself

/-- The state in which a process is made: the buffer is allocated, and the file was closed. -/
def Execv.bought (s : Execv) : Execv :=
  { s with files := { s.files with heap := s.files.heap.alloc, errno := .eperm } }

theorem Execv.Ready.bought (h : s.Ready) :
  s.bought.Ready
  := ⟨h.table, fun a ha => List.mem_cons_of_mem _ (h.stack a ha)⟩

/-- A file of a command makes a process for the command, and any other node is refused. -/
theorem execFile_returns (hp : At p w) (hs : s.files.heap.Granting) (hfree : s.Ready)
    (hw : Hardware) (fileInfo : ℕ → Byte) (argv : List Name) :
  Returns s (execFile pf hw fileInfo argv p) fun x s' =>
    match w.command with
    | none => x = some (-1, none) ∧ ∃ e, s' = { s with errno := e }
    | some cmd => x = some ((s.free s.made.length).2, some s.files.heap.next) ∧
        ∃ child, Launches pf s.bought child ∧
          s' = s.bought.after child cmd (min 256 argv.length) argv
  := by
  by_cases hbin : w.device = .root ∧ w.entry.crumb.parentIdx = fidBin
  · obtain ⟨hfile, hmode⟩ := (executable_iff w).mpr hbin
    have hmem : w.entry ∈ rootSNS := by
      have hmem := w.mem
      rwa [hbin.1] at hmem
    obtain ⟨hcontents, hlength, hshort, hzero, cmd, hcmd⟩ := bin_contents hmem hbin.2
    have hdir := (isFile_cases hfile).1
    have hcommand : w.command = some cmd := (if_pos hbin).trans hcmd
    rw [hcommand]
    have hdev : onBlocks (deviceAt p.device) s = .done w.device s := by
      rw [hp.device]
      exact onBlocks_done (deviceAt_index w.device s.files.heap)
    have hinfo : onBlocks (w.device.getInfo pf p) s = .done (some (mkNodeInfo p w.entry)) s :=
      onBlocks_done (getInfo_file hp hdir s.files.heap)
    have hblock := onBlocks_done (syskmalloc_granted (hs.grants s.files.heap.next))
    have hlen : (0x23 :: 0x21 :: w.entry.name : Name).length < 2 ^ 31 := by
      rw [List.length_cons, List.length_cons]
      omega
    obtain ⟨t, hbytes, hread⟩ := readRoot_whole (p := openDev p capRead) hbin.1
      ⟨hp.device, hp.crumb⟩ hdir hcontents hlength (List.cons_ne_nil _ _) hlen hw fileInfo
    have hclose : onCaller (w.device.close pf t.portal) (s.setHeap s.files.heap.alloc) =
        .done () s.bought := by
      rw [hbin.1]
      rfl
    have hbang : behindBang (blockBytes t.buf (w.entry.length + 1)) s.bought =
        .done (some w.entry.name) s.bought := by
      rw [hbytes]
      change Outcome.done (some (cstr (w.entry.name ++ [0]))) s.bought = _
      rw [cstr_append_zero hzero]
    have hstart : Returns s.bought (startProc pf cmd (countArgs 256 argv) argv) _ :=
      startProc_granted ((Heap.later_alloc _).granting hs) hfree.bought cmd _ argv
    rw [execFile, hp.crumb, if_neg (by rw [hfile]; exact Bool.noConfusion)]
    refine .step hdev (.step hinfo ?_)
    dsimp only
    rw [if_neg (not_not_intro (show (mkNodeInfo p w.entry).mode = 0o555 from hmode))]
    refine .step hblock ?_
    change Returns _ (match w.device.read pf hw fileInfo w.entry.length 0
      ⟨openDev p capRead, fun _ => none⟩ with | .stop f _ => _ | .done r t => _) _
    rw [hread]
    dsimp only
    rw [if_neg (by omega)]
    refine .step hclose (.step hbang ?_)
    dsimp only
    rw [hcmd]
    refine hstart.bind ?_
    rintro r _ ⟨rfl, child, hstarts, rfl⟩
    rw [countArgs_eq]
    exact .pure ⟨rfl, child, hstarts, rfl⟩
  · have hcommand : w.command = none := if_neg hbin
    rw [hcommand]
    have hnot := mt (executable_iff w).mp hbin
    rw [not_and] at hnot
    rw [execFile, hp.crumb]
    by_cases hfile : w.entry.crumb.isFile = true
    · have hdev : onBlocks (deviceAt p.device) s = .done w.device s := by
        rw [hp.device]
        exact onBlocks_done (deviceAt_index w.device s.files.heap)
      have hinfo : onBlocks (w.device.getInfo pf p) s = .done (some (mkNodeInfo p w.entry)) s :=
        onBlocks_done (getInfo_file hp (isFile_cases hfile).1 s.files.heap)
      rw [if_neg (by rw [hfile]; exact Bool.noConfusion)]
      refine .step hdev (.step hinfo ?_)
      refine ⟨_, _, congrFun (if_pos (hnot hfile)) s, rfl, .eperm, rfl⟩
    · rw [if_pos (by simpa using hfile)]
      exact .pure ⟨rfl, s.errno, rfl⟩

/--
What `sysexecv` does for a command, or where there is none.  For a command it makes a process and
leaves three blocks besides those of the process: the elements of its path, and the path of the
console and its elements.  Otherwise it leaves the elements of its path.
-/
structure Executes (pf : Platform) (s : Execv) (cmd : Option Cmd) (argv : List Name) (r : ℤ)
    (s' : Execv) : Prop where
  table : s'.files.table = s.files.table
  slash : s'.files.slash = s.files.slash
  dot : s'.files.dot = s.files.dot
  free : s'.free = s.free
  granting : s'.files.heap.Granting
  made : match cmd with
    | none => r = -1 ∧ s'.made = s.made ∧ Leaves 1 ∅ s.files.heap s'.files.heap
    | some cmd => r = (s.free s.made.length).2 ∧ ∃ child,
        NewProc pf (s.free s.made.length).1 s.files.heap child ∧
        s'.made = s.made ++ [⟨child, r, cmd, min 256 argv.length, argv⟩] ∧
        Leaves 3 child.blocks s.files.heap s'.files.heap

theorem NewProc.mono {p₀ p : Proc} (h : NewProc pf p₀ H' p) (hH : ∀ a ∈ H.live, a ∈ H'.live) :
  NewProc pf p₀ H p
  := { h with new := fun a ha hold => h.new a ha (hH a hold) }

/-- One more block is left besides no blocks of a process. -/
theorem leaves_one {a : ℕ} (ha : a ∉ H.live) (hlive : ∀ x, x ∈ H'.live ↔ x ∈ H.live ∨ x = a) :
  Leaves 1 ∅ H H'
  := by
  refine ⟨{a}, Finset.card_singleton a, fun x hx => ?_, fun x => ?_⟩
  · rw [Finset.mem_singleton.mp hx]
    exact ⟨ha, Set.notMem_empty a⟩
  · rw [hlive, Finset.mem_singleton, or_iff_right (Set.notMem_empty x)]

/-- A block that is allocated is freed. -/
theorem onBlocks_free (s : Execv) (hH : H.Granting) {a : ℕ} (ha : a ∈ H.live) :
  onBlocks (syskfree a) (s.setHeap H) = .done () (s.setHeap (H.free a)) ∧ (H.free a).Granting ∧
    ∀ x, x ∈ (H.free a).live ↔ x ≠ a ∧ x ∈ H.live
  := by
  have hrun := syskfree_of_mem ha
  refine ⟨onBlocks_done hrun, ((follows_syskfree a).done hrun).granting hH, fun x => ?_⟩
  rw [Heap.free_live, hH.nodup.mem_erase_iff]

theorem Execv.Ready.setHeap (h : s.Ready) (hH : ∀ a ∈ s.files.heap.live, a ∈ H.live) :
  (s.setHeap H).Ready
  := ⟨h.table, fun a ha => hH a (h.stack a ha)⟩

/-- With memory for everything the call returns, unless a mount is in the way. -/
theorem sysexecv_returns {path : Name} (hdot : At s.files.dot.2 v) (hm : v.isMount = false)
    (hslash : At s.files.slash.2 (rootNode pf)) (hs : s.files.heap.Granting) (hfree : s.Ready)
    (hopen : blocked (startNode v path) (pathNames path) = false) (hw : Hardware)
    (fileInfo : ℕ → Byte) (argv : List Name) :
  Returns s (sysexecv pf hw fileInfo (some path) argv)
    (Executes pf s ((executed v path).bind Node.command) argv)
  := by
  have hpath : mkPath path s.files.heap = _ :=
    mkPath_done (hs.grants s.files.heap.next) (hs.grants (s.files.heap.next + 1))
  have hH₂ : s.files.heap.alloc.alloc.Granting :=
    (Heap.later_alloc _).granting ((Heap.later_alloc _).granting hs)
  rw [sysexecv]
  refine .step rfl (.step (onBlocks_done (s := { s with errno := .eperm }) hpath) ?_)
  dsimp only
  refine Returns.bind (findFile_found (s := Execv.setHeap { s with errno := .eperm }
    s.files.heap.alloc.alloc) hdot hm hslash hH₂ rfl hopen) ?_
  rintro r _ ⟨H₃, rfl, hH₃, hfound⟩
  have hnext : s.files.heap.next ∉ s.files.heap.live := s.files.heap.next_notMem
  have helems : s.files.heap.next + 1 ∉ s.files.heap.live := fun h =>
    absurd (s.files.heap.live_lt _ h) (by omega)
  cases hx : executed v path with
  | none =>
      rw [hx] at hfound
      obtain ⟨rfl, hlive⟩ := hfound
      have hlive₃ (x : ℕ) : x ∈ H₃.live ↔
          x = s.files.heap.next + 1 ∨ x = s.files.heap.next ∨ x ∈ s.files.heap.live := by
        rw [show H₃.live = s.files.heap.alloc.alloc.live from hlive]
        exact List.mem_cons.trans (or_congr_right List.mem_cons)
      obtain ⟨hrun, hH₄, hmem₄⟩ := onBlocks_free { s with errno := .eperm } hH₃
        ((hlive₃ _).mpr (.inr (.inl rfl)))
      refine .step hrun (.pure ⟨rfl, rfl, rfl, rfl, hH₄, rfl, rfl, leaves_one helems fun x => ?_⟩)
      refine (hmem₄ x).trans ?_
      rw [hlive₃]
      grind
  | some w =>
      rw [hx] at hfound
      obtain ⟨a, p, rfl, hp, hlive, ha⟩ := hfound
      have hlive₂ (x : ℕ) : x ∈ s.files.heap.alloc.alloc.live ↔
          x = s.files.heap.next + 1 ∨ x = s.files.heap.next ∨ x ∈ s.files.heap.live :=
        List.mem_cons.trans (or_congr_right List.mem_cons)
      have hlive₃ (x : ℕ) : x ∈ H₃.live ↔ x = a ∨ x ∈ s.files.heap.alloc.alloc.live := by
        rw [show H₃.live = a :: s.files.heap.alloc.alloc.live from hlive, List.mem_cons]
      have hfresh : a ∉ s.files.heap.alloc.alloc.live := ha
      have hpth : s.files.heap.next ∈ H₃.live := by
        rw [hlive₃, hlive₂]
        exact .inr (.inr (.inl rfl))
      have hne : a ≠ s.files.heap.next := by
        rintro rfl
        exact hfresh ((hlive₂ _).mpr (.inr (.inl rfl)))
      have hready : (Execv.setHeap { s with errno := .eperm } H₃).Ready :=
        Execv.Ready.setHeap (s := { s with errno := .eperm }) hfree fun x hx =>
          (hlive₃ x).mpr (.inr ((hlive₂ x).mpr (.inr (.inr hx))))
      refine Returns.bind (execFile_returns hp hH₃ hready hw fileInfo argv) ?_
      rw [Option.bind_some]
      cases hcmd : w.command with
      | none =>
          rintro x _ ⟨rfl, e, rfl⟩
          obtain ⟨hrun, hH₄, hmem₄⟩ := onBlocks_free { s with errno := e } hH₃ hpth
          refine .step hrun ?_
          obtain ⟨hrun, hH₅, hmem₅⟩ := onBlocks_free { s with errno := e } hH₄
            ((hmem₄ a).mpr ⟨hne, (hlive₃ a).mpr (.inl rfl)⟩)
          refine .step hrun (.pure ⟨rfl, rfl, rfl, rfl, hH₅, rfl, rfl,
            leaves_one helems fun x => ?_⟩)
          refine (hmem₅ x).trans ?_
          rw [hmem₄, hlive₃, hlive₂]
          grind
      | some cmd =>
          rintro x _ ⟨rfl, child, ⟨hmade, hchild, leaked, hcard, hleaked, hmem⟩, rfl⟩
          have hbuf : H₃.next ∉ H₃.live := H₃.next_notMem
          -- of the blocks that are freed, and of the one that is left, none is the process's
          have hown (x : ℕ) (hx : x ∈ H₃.next :: H₃.live) (hold : x ∉ s.files.heap.live) :
              x ∉ child.blocks := fun h => hold (hfree.stack x (hmade.new x h hx))
          have hbought (x : ℕ) : x ∈ child.files.heap.live ↔
              (x = H₃.next ∨ x ∈ H₃.live) ∨ x ∈ child.blocks ∨ x ∈ leaked :=
            (hmem x).trans (or_congr_left List.mem_cons)
          have hleft (x : ℕ) (hx : x ∈ leaked) : ¬ (x = H₃.next ∨ x ∈ H₃.live) :=
            fun h => (hleaked x hx).1 (List.mem_cons.mpr h)
          let t := (Execv.setHeap { s with errno := .eperm } H₃).bought.after child cmd
            (min 256 argv.length) argv
          obtain ⟨hrun, hH₄, hmem₄⟩ := onBlocks_free t hchild ((hbought _).mpr (.inl (.inr hpth)))
          refine .step hrun ?_
          have hlist : a ∈ H₃.live := (hlive₃ a).mpr (.inl rfl)
          obtain ⟨hrun, hH₅, hmem₅⟩ := onBlocks_free t hH₄
            ((hmem₄ a).mpr ⟨hne, (hbought _).mpr (.inl (.inr hlist))⟩)
          refine .step hrun ?_
          obtain ⟨hrun, hH₆, hmem₆⟩ := onBlocks_free t (a := H₃.next) hH₅ (by
            rw [hmem₅, hmem₄, hbought]
            grind)
          have hold (x : ℕ) (hx : x ∈ s.files.heap.live) : x ∈ H₃.next :: H₃.live := by
            rw [List.mem_cons, hlive₃, hlive₂]
            exact .inr (.inr (.inr (.inr hx)))
          refine .step hrun (.pure ⟨rfl, rfl, rfl, rfl, hH₆, rfl, child, hmade.mono hold, rfl,
            insert (s.files.heap.next + 1) leaked, ?_, fun x hx => ?_, fun x => ?_⟩)
          · have hnot : s.files.heap.next + 1 ∉ leaked := fun h => hleft _ h <| by
              rw [hlive₃, hlive₂]
              exact .inr (.inr (.inl rfl))
            rw [Finset.card_insert_of_notMem hnot, hcard]
          · rcases Finset.mem_insert.mp hx with rfl | hx
            · refine ⟨helems, hown _ ?_ helems⟩
              rw [List.mem_cons, hlive₃, hlive₂]
              exact .inr (.inr (.inl rfl))
            · exact ⟨fun h => (hleaked x hx).1 (hold x h), (hleaked x hx).2⟩
          · refine (hmem₆ x).trans ?_
            have hx := hown x
            have hx' := hleft x
            rw [hmem₅, hmem₄, hbought, Finset.mem_insert]
            rw [List.mem_cons, hlive₃, hlive₂] at hx
            rw [hlive₃, hlive₂] at hx' hbuf ⊢
            grind

/-- A call for a path with a mount in the way stops. -/
theorem sysexecv_stops {path : Name} (hdot : At s.files.dot.2 v) (hm : v.isMount = false)
    (hslash : At s.files.slash.2 (rootNode pf)) (hs : s.files.heap.Granting)
    (hblocked : blocked (startNode v path) (pathNames path) = true) (hw : Hardware)
    (fileInfo : ℕ → Byte) (argv : List Name) :
  ∃ f s', sysexecv pf hw fileInfo (some path) argv s = .stop f s'
  := by
  have hpath : mkPath path s.files.heap = _ :=
    mkPath_done (hs.grants s.files.heap.next) (hs.grants (s.files.heap.next + 1))
  obtain ⟨hstart, hmount⟩ := at_start path hdot hm hslash
  have hwalks : ¬ Walks (startNode v path) (pathNames path) s.files.heap.alloc.alloc := by
    rintro (⟨hopen, -⟩ | hnone)
    · rw [hblocked] at hopen
      exact Bool.noConfusion hopen
    · exact Bool.noConfusion ((hs.grants _).symm.trans hnone)
  obtain ⟨f, H, hstop⟩ := (syswalk_spec hstart hmount _ _).2 hwalks
  let t : Execv := { s with errno := .eperm }
  refine ⟨f, t.setHeap H, ?_⟩
  rw [sysexecv]
  refine (bind_done rfl).trans ((bind_done (onBlocks_done (s := t) hpath)).trans ?_)
  refine bind_stop ((bind_done (get_apply _)).trans (bind_stop ?_))
  exact onBlocks_stop (s := t.setHeap s.files.heap.alloc.alloc) hstop

/--
`sysexecv` makes a process for the command whose file the path leads to, if there is one, whatever
its arguments are.  A path with a mount in the way is the only one for which it does not return.
-/
theorem sysexecv_makes {path : Name} (hdot : At s.files.dot.2 v) (hm : v.isMount = false)
    (hslash : At s.files.slash.2 (rootNode pf)) (hs : s.files.heap.Granting) (hfree : s.Ready)
    (hw : Hardware) (fileInfo : ℕ → Byte) (argv : List Name) :
  (blocked (startNode v path) (pathNames path) = false →
    Returns s (sysexecv pf hw fileInfo (some path) argv)
      (Executes pf s ((executed v path).bind Node.command) argv)) ∧
    (blocked (startNode v path) (pathNames path) = true →
      ∃ f s', sysexecv pf hw fileInfo (some path) argv s = .stop f s')
  := ⟨fun hopen => sysexecv_returns hdot hm hslash hs hfree hopen hw fileInfo argv,
    fun hblocked => sysexecv_stops hdot hm hslash hs hblocked hw fileInfo argv⟩

end

/-- A command of `/bin` is found by its name alone. -/
theorem sysexecv_makes_ls :
  Returns ⟨freshFiles, .ok, fun n => (freshProc, n + 2), []⟩
    (sysexecv .k70cw quietHardware (fun _ => 0) (some (text "ls")) [text "ls", text "/dev"])
    (Executes .k70cw ⟨freshFiles, .ok, fun n => (freshProc, n + 2), []⟩ (some .ls)
      [text "ls", text "/dev"])
  := by
  have hls : (executed (rootNode .k70cw) (text "ls")).bind Node.command = some .ls := by
    decide +kernel
  rw [← hls]
  exact (sysexecv_makes (s := ⟨freshFiles, .ok, fun n => (freshProc, n + 2), []⟩) (at_slash .k70cw)
    (by decide) (at_slash .k70cw) ⟨fun _ => rfl, by decide⟩ ⟨rfl, nofun⟩ _ _ _).1 (by decide)

end Dev
