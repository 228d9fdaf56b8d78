import Manos.Lib.Exec
import Manos.Lib.Threads
import Manos.Torgo.Strings

/-!
# The environment of the shell

The functions of `env.c` over the list of bindings as it is in memory.  Blocks are named by
numbers; requests for memory are granted with blocks that were never given out.  A string and its
bytes are taken for one block.
-/

namespace Torgo

open Exec

/-- `EnvVar`, with the blocks of its strings -/
structure EnvVar where
  name : ℕ
  value : ℕ
  next : Option ℕ
deriving DecidableEq

/-- An `Env` and the memory with its bindings. -/
structure Env where
  vars : Option ℕ
  /-- the bindings by their blocks -/
  var : ℕ → EnvVar
  /-- the strings by their blocks -/
  str : ℕ → DString
  /-- the blocks that were passed to `kfree`, in this order -/
  freed : List ℕ
  /-- the blocks from here on were not given out -/
  brk : ℕ

namespace Env

/-- A block is asked for. -/
def alloc : Exec Env ℕ := do
  let s ← get
  modify fun s => { s with brk := s.brk + 1 }
  return s.brk

/-- `kfree` -/
def kfree (a : ℕ) : Exec Env Unit := do
  let s ← get
  if a ∈ s.freed then fault (.wild "kfree") else modify fun s => { s with freed := s.freed ++ [a] }

/-- The binding that is pointed to. -/
def deref : Option ℕ → Exec Env EnvVar
  | none => fault (.null "vars")
  | some a => do
      let s ← get
      if a ∈ s.freed then fault (.wild "vars") else return s.var a

/-- The binding in the block `a` is assigned to. -/
def assign (a : ℕ) (v : EnvVar) : Exec Env Unit := do
  let _ ← deref (some a)
  modify fun s => { s with var := Function.update s.var a v }

/-- The string in the block `a` -/
def string (a : ℕ) : Exec Env DString := do
  let s ← get
  if a ∈ s.freed then fault (.wild "str") else return s.str a

/-- `matchString` for the string in the block `a` -/
def matchName (a : ℕ) (name : DString) : Exec Env Bool := do
  let str ← string a
  match matchString str name with
  | none => fault (.wild "aptr")
  | some b => return b

/-- `copyString` -/
def copyString (str : DString) : Exec Env ℕ := do
  let a ← alloc
  modify fun s => { s with str := Function.update s.str a str }
  return a

/-- `mkEnvVar` -/
def mkEnvVar (name value : DString) : Exec Env ℕ := do
  let var ← alloc
  let n ← copyString name
  let v ← copyString value
  modify fun s => { s with var := Function.update s.var var ⟨n, v, none⟩ }
  return var

/-- `freeEnvVar` -/
def freeEnvVar (a : ℕ) : Exec Env Unit := do
  let v ← deref (some a)
  kfree v.name
  kfree v.value
  kfree a

/-- `addVarEnv` -/
def addVarEnv (name value : DString) : Exec Env ℕ := do
  let var ← mkEnvVar name value
  let s ← get
  let v ← deref (some var)
  assign var { v with next := s.vars }
  modify fun s => { s with vars := some var }
  return v.name

/-- The loop of `lookupVarEnv`, with at most so many turns -/
def lookupLoop (name : DString) : ℕ → Option ℕ → Exec Env (Option ℕ)
  | 0, _ => fault .endless
  | _ + 1, none => return none
  | k + 1, some a => do
      let v ← deref (some a)
      let found ← matchName v.name name
      if found = true then return some v.value
      else lookupLoop name k v.next

/-- `lookupVarEnv`, which returns the block of a string -/
def lookupVarEnv (k : ℕ) (name : DString) : Exec Env (Option ℕ) := do
  let s ← get
  lookupLoop name k s.vars

/-- The loop of `updateVarEnv`, with at most so many turns, and what follows it -/
def updateLoop (name value : DString) (stub : ℕ) : ℕ → Option ℕ → Exec Env DString
  | 0, _ => fault .endless
  | _ + 1, none => do
      let v ← deref (some stub)
      let s ← get
      assign stub { v with next := s.vars }
      modify fun s => { s with vars := some stub }
      string v.value
  | k + 1, some a => do
      let v ← deref (some a)
      let found ← matchName v.name name
      if found = true then
        let w ← deref (some stub)
        assign a { v with value := w.value }
        assign stub { w with value := v.value }
        freeEnvVar stub
        return value
      else updateLoop name value stub k (some a)

/-- `updateVarEnv` -/
def updateVarEnv (k : ℕ) (name value : DString) : Exec Env DString := do
  let stub ← mkEnvVar name value
  let s ← get
  updateLoop name value stub k s.vars

/-- The loop of `unsetVarEnv`, with at most so many turns -/
def unsetLoop (name : DString) (dummy : Option ℕ) : ℕ → Exec Env Unit
  | 0 => fault .endless
  | k + 1 => do
      let d ← deref dummy
      match dummy, d.next with
      | some a, some b => do
          let v ← deref (some b)
          let found ← matchName v.name name
          if found = true then
            assign a { d with next := v.next }
            freeEnvVar b
          else assign a { d with next := v.next }
          unsetLoop name dummy k
      | _, _ => pure ()

/-- `unsetVarEnv` -/
def unsetVarEnv (k : ℕ) (name : DString) : Exec Env Unit := do
  let s ← get
  modify fun s => { s with vars := s.vars }
  unsetLoop name s.vars k
  let d ← deref s.vars
  modify fun s => { s with vars := d.next }

/-! ### Bindings in memory -/

/-- The blocks of the binding in the block `a` -/
def blocks (s : Env) (a : ℕ) : List ℕ := [a, (s.var a).name, (s.var a).value]

/-- The name and the value of the binding in the block `a` -/
def binding (s : Env) (a : ℕ) : DString × DString := (s.str (s.var a).name, s.str (s.var a).value)

/-- The blocks of the bindings `l` are different, and none of them was freed. -/
structure Live (s : Env) (l : List ℕ) : Prop where
  nodup : (l.flatMap s.blocks).Nodup
  notMem : ∀ x ∈ l.flatMap s.blocks, x ∉ s.freed

/-- The bindings of the environment are those in the blocks `l`, in this order, which are live. -/
structure Holds (s : Env) (l : List ℕ) : Prop where
  threads : Threads (fun a => (s.var a).next) s.vars l
  live : s.Live l
  given : ∀ x ∈ l.flatMap s.blocks, x < s.brk
  freed : ∀ x ∈ s.freed, x < s.brk

variable {s : Env} {a x : ℕ} {l : List ℕ} {name value : DString}

theorem Live.mem (h : s.Live l) (ha : a ∈ l) (hx : x ∈ s.blocks a) :
  x ∉ s.freed
  := h.notMem x (List.mem_flatMap.mpr ⟨a, ha, hx⟩)

theorem mem_blocks {a x : ℕ} :
  x ∈ s.blocks a ↔ x = a ∨ x = (s.var a).name ∨ x = (s.var a).value
  := by
  simp [blocks]

theorem Live.var_live (h : s.Live l) (ha : a ∈ l) :
  a ∉ s.freed
  := h.mem ha (mem_blocks.mpr (.inl rfl))

theorem Live.name_live (h : s.Live l) (ha : a ∈ l) :
  (s.var a).name ∉ s.freed
  := h.mem ha (mem_blocks.mpr (.inr (.inl rfl)))

theorem Live.value_live (h : s.Live l) (ha : a ∈ l) :
  (s.var a).value ∉ s.freed
  := h.mem ha (mem_blocks.mpr (.inr (.inr rfl)))

/-- The blocks of a first binding and of the others. -/
theorem live_cons :
  s.Live (a :: l) ↔ (s.blocks a).Nodup ∧ (∀ x ∈ s.blocks a, x ∉ s.freed)
    ∧ (∀ x ∈ s.blocks a, x ∉ l.flatMap s.blocks) ∧ s.Live l
  := by
  constructor
  · rintro ⟨hnodup, hlive⟩
    rw [List.flatMap_cons] at hnodup hlive
    obtain ⟨ha, hl, hapart⟩ := List.nodup_append.mp hnodup
    refine ⟨ha, ?_, ?_, hl, ?_⟩
    · intro x hx
      apply hlive x (List.mem_append_left _ hx)
    · intro x hx hx'
      exact hapart x hx x hx' rfl
    · intro x hx
      apply hlive x (List.mem_append_right _ hx)
  · rintro ⟨ha, hlive, hapart, hl⟩
    constructor
    · rw [List.flatMap_cons]
      refine List.nodup_append.mpr ⟨ha, hl.nodup, ?_⟩
      rintro x hx _ hx' rfl
      exact hapart x hx hx'
    · intro x hx
      rw [List.flatMap_cons] at hx
      rcases List.mem_append.mp hx with hx | hx
      · apply hlive x hx
      · apply hl.notMem x hx

/-- Bindings stay live when their blocks do. -/
theorem Live.frame {s' : Env} (h : s.Live l) (hblocks : ∀ a ∈ l, s'.blocks a = s.blocks a)
    (hfreed : ∀ x ∈ l.flatMap s.blocks, x ∈ s'.freed → x ∈ s.freed) :
  s'.Live l
  := by
  have heq : l.flatMap s'.blocks = l.flatMap s.blocks := by
    rw [List.flatMap_def, List.flatMap_def, List.map_congr_left hblocks]
  constructor
  · rw [heq]
    exact h.nodup
  · intro x hx hx'
    rw [heq] at hx
    exact h.notMem x hx (hfreed x hx hx')

theorem deref_live (h : a ∉ s.freed) :
  deref (some a) s = .done (s.var a) s
  := congrFun (if_neg h) s

/-- The memory with another binding in the block `a`. -/
def setVar (s : Env) (a : ℕ) (v : EnvVar) : Env where
  vars := s.vars
  var := Function.update s.var a v
  str := s.str
  freed := s.freed
  brk := s.brk

theorem assign_live (h : a ∉ s.freed) (v : EnvVar) :
  assign a v s = .done () (s.setVar a v)
  := by
  rw [assign, bind_done (deref_live h), modify_apply, setVar]

theorem kfree_live (h : a ∉ s.freed) :
  kfree a s = .done () { s with freed := s.freed ++ [a] }
  := congrFun (if_neg h) s

theorem matchName_live (h : x ∉ s.freed) :
  matchName x name s = .done (decide (Matches (s.str x) name)) s
  := by
  have hstring : string x s = .done (s.str x) s := congrFun (if_neg h) s
  simp only [matchName, bind_done hstring, matchString_eq_matches, pure_apply]

/-- The environment with a new binding in the first block that was not given out. -/
def withVar (s : Env) (name value : DString) : Env where
  vars := s.vars
  var := Function.update s.var s.brk ⟨s.brk + 1, s.brk + 2, none⟩
  str := Function.update (Function.update s.str (s.brk + 1) name) (s.brk + 2) value
  freed := s.freed
  brk := s.brk + 3

theorem mkEnvVar_apply (s : Env) (name value : DString) :
  mkEnvVar name value s = .done s.brk (s.withVar name value)
  := rfl

end Env

end Torgo
