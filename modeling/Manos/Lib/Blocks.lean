import Mathlib.Logic.Function.Basic
import Manos.Lib.Exec

/-!
# Blocks that are requested and given back

A memory of blocks with contents of a type `β`.  A request is granted or refused; a block that is
granted has a number that no block had before, so that pointers to blocks that were given back are
known.  To use such a pointer, or the null pointer, is a fault.
-/

namespace Blocks

open Exec

variable {α β : Type}

/-- A pointer: the null pointer, or the number of a block -/
abbrev Ptr : Type := Option ℕ

/-- The live blocks, the number of blocks so far, and which requests will be granted -/
structure Memory (β : Type) where
  blocks : ℕ → Option β
  allocated : ℕ
  grants : ℕ → Bool
  fresh : ∀ a, allocated ≤ a → blocks a = none

namespace Memory

/-- The memory without a block -/
def empty (grants : ℕ → Bool) : Memory β where
  blocks _ := none
  allocated := 0
  grants := grants
  fresh _ _ := rfl

/-- The memory with a new block, after a request that was granted -/
def give (b : β) (m : Memory β) : Memory β where
  blocks := Function.update m.blocks m.allocated (some b)
  allocated := m.allocated + 1
  grants i := m.grants (i + 1)
  fresh := by
    intro a ha
    rw [Function.update_of_ne (Nat.ne_of_gt ha)]
    exact m.fresh a (Nat.le_of_succ_le ha)

/-- The memory after a request that was refused -/
def refuse (m : Memory β) : Memory β := { m with grants := fun i => m.grants (i + 1) }

/-- The memory with the contents of a live block changed, or with the block given back -/
def alter (a : ℕ) (f : β → Option β) (m : Memory β) : Memory β where
  blocks := Function.update m.blocks a ((m.blocks a).bind f)
  allocated := m.allocated
  grants := m.grants
  fresh := by
    intro a' ha'
    by_cases h : a' = a
    · rw [h, Function.update_self, ← h, m.fresh a' ha']
      rfl
    · rw [Function.update_of_ne h]
      exact m.fresh a' ha'

end Memory

/-! ### Programs -/

/-- `kmalloc`, for a block with the contents `b` -/
def kmalloc (b : β) : Exec (Memory β) Ptr := do
  let m ← get
  if m.grants 0 then do
    modify (Memory.give b)
    return some m.allocated
  else do
    modify Memory.refuse
    return none

/-- `kfree`, which does nothing for the null pointer -/
def kfree : Ptr → Exec (Memory β) Unit
  | none => return ()
  | some a => do
    let m ← get
    match m.blocks a with
    | none => fault (.wild "kfree")
    | some _ => modify (Memory.alter a fun _ => none)

/-- The contents of the block that `p` points to -/
def load (what : String) (p : Ptr) : Exec (Memory β) β := do
  let m ← get
  match p with
  | none => fault (.null what)
  | some a =>
    match m.blocks a with
    | none => fault (.wild what)
    | some b => return b

/-- Change the contents of the block that `p` points to. -/
def store (what : String) (p : Ptr) (b : β) : Exec (Memory β) Unit := do
  let _ ← load what p
  modify (p.elim id fun a => Memory.alter a fun _ => some b)

/-- A kind of blocks, whose contents are the values of `α` -/
structure Kind (β α : Type) where
  block : α → β
  value : β → Option α
  value_block : ∀ x, value (block x) = some x

/-- The value in the block that `p` points to.  To read a block of another kind is a fault. -/
def Kind.read (k : Kind β α) (what : String) (p : Ptr) : Exec (Memory β) α := do
  match k.value (← load what p) with
  | none => fault (.wild what)
  | some x => return x

/-- Change the value in the block that `p` points to. -/
def Kind.assign (k : Kind β α) (what : String) (p : Ptr) (f : α → α) :
    Exec (Memory β) Unit := do
  let x ← k.read what p
  store what p (k.block (f x))

/-! ### Their effects -/

variable {m : Memory β} {a i : ℕ} {b c : β} {what : String}

theorem kmalloc_granted (h : m.grants 0 = true) (b : β) :
  kmalloc b m = .done (some m.allocated) (m.give b)
  := by
  rw [kmalloc, bind_done (get_apply m), if_pos h]
  rfl

theorem kmalloc_refused (h : m.grants 0 = false) (b : β) :
  kmalloc b m = .done none m.refuse
  := by
  rw [kmalloc, bind_done (get_apply m), if_neg (by rw [h]; nofun)]
  rfl

theorem load_done (h : m.blocks a = some b) (what : String) :
  load what (some a) m = .done b m
  := by
  rw [load, bind_done (get_apply m)]
  dsimp only
  rw [h]
  rfl

/-- To read a block that was given back is a fault. -/
theorem load_stop (h : m.blocks a = none) (what : String) :
  load what (some a) m = .stop (.wild what) m
  := by
  rw [load, bind_done (get_apply m)]
  dsimp only
  rw [h]
  rfl

theorem store_done (h : m.blocks a = some b) (what : String) (c : β) :
  store what (some a) c m = .done () (m.alter a fun _ => some c)
  := by
  rw [store, bind_done (load_done h what)]
  rfl

theorem kfree_null (m : Memory β) :
  kfree none m = .done () m
  := rfl

theorem kfree_done (h : m.blocks a = some b) :
  kfree (some a) m = .done () (m.alter a fun _ => none)
  := by
  rw [kfree, bind_done (get_apply m), h]
  rfl

theorem Kind.read_done (k : Kind β α) {x : α} (h : m.blocks a = some (k.block x))
    (what : String) :
  k.read what (some a) m = .done x m
  := by
  rw [Kind.read, bind_done (load_done h what), k.value_block]
  rfl

theorem Kind.assign_done (k : Kind β α) {x : α} (h : m.blocks a = some (k.block x))
    (what : String) (f : α → α) :
  k.assign what (some a) f m = .done () (m.alter a fun _ => some (k.block (f x)))
  := by
  rw [Kind.assign, bind_done (k.read_done h what), store_done h]

/-! ### The blocks afterwards -/

@[simp]
theorem blocks_give (b : β) (m : Memory β) :
  (m.give b).blocks = Function.update m.blocks m.allocated (some b)
  := rfl

@[simp]
theorem allocated_give (b : β) (m : Memory β) :
  (m.give b).allocated = m.allocated + 1
  := rfl

@[simp]
theorem grants_give (b : β) (m : Memory β) :
  (m.give b).grants i = m.grants (i + 1)
  := rfl

@[simp]
theorem blocks_refuse (m : Memory β) :
  m.refuse.blocks = m.blocks
  := rfl

@[simp]
theorem grants_refuse (m : Memory β) :
  m.refuse.grants i = m.grants (i + 1)
  := rfl

@[simp]
theorem blocks_alter (f : β → Option β) (m : Memory β) :
  (m.alter a f).blocks = Function.update m.blocks a ((m.blocks a).bind f)
  := rfl

@[simp]
theorem allocated_alter (f : β → Option β) (m : Memory β) :
  (m.alter a f).allocated = m.allocated
  := rfl

/-- The block that was granted. -/
theorem give_self (b : β) (m : Memory β) :
  (m.give b).blocks m.allocated = some b
  := by
  rw [blocks_give, Function.update_self]

/-- The contents of a block that was changed. -/
theorem alter_self (h : m.blocks a = some b) (c : β) :
  (m.alter a fun _ => some c).blocks a = some c
  := by
  rw [blocks_alter, Function.update_self, h]
  rfl

theorem alter_ne {a' : ℕ} (h : a' ≠ a) (f : β → Option β) (m : Memory β) :
  (m.alter a f).blocks a' = m.blocks a'
  := by
  rw [blocks_alter, Function.update_of_ne h]

/-- A block with other contents than the one that was changed is the same. -/
theorem alter_other {a' : ℕ} (h : m.blocks a = some b) (h' : m.blocks a' = some c) (hne : c ≠ b)
    (f : β → Option β) :
  (m.alter a f).blocks a' = some c
  := by
  have hne : a' ≠ a := by
    rintro rfl
    rw [h, Option.some.injEq] at h'
    exact hne h'.symm
  rw [alter_ne hne, h']

/-- Two changes of a block are one. -/
theorem alter_alter (c : β) (f : β → Option β) (m : Memory β) :
  (m.alter a fun _ => some c).alter a f = m.alter a fun _ => f c
  := by
  rw [Memory.alter, Memory.mk.injEq]
  refine ⟨?_, rfl, rfl⟩
  rw [blocks_alter, Function.update_self, Function.update_idem, Option.bind_assoc]
  rfl

/-- The number of a live block is that of no later one. -/
theorem Memory.lt_of_live (h : m.blocks a = some b) :
  a < m.allocated
  := by
  by_contra hle
  rw [m.fresh a (Nat.le_of_not_lt hle)] at h
  cases h

/-! ### Programs that change new blocks only -/

/-- The memory `s` comes after `m` by `r` requests, of which `k` were granted.  The blocks of `m`
are the same in it. -/
structure After (m s : Memory β) (r k : ℕ) : Prop where
  allocated : s.allocated = m.allocated + k
  grants : ∀ i, s.grants i = m.grants (i + r)
  kept : ∀ a < m.allocated, s.blocks a = m.blocks a

namespace After

variable {s t : Memory β} {r r' k k' : ℕ}

theorem refl (m : Memory β) :
  After m m 0 0
  := ⟨rfl, fun _ => rfl, fun _ _ => rfl⟩

theorem trans (h : After m s r k) (h' : After s t r' k') :
  After m t (r' + r) (k + k')
  := by
  refine ⟨?_, ?_, ?_⟩
  · rw [h'.allocated, h.allocated, Nat.add_assoc]
  · intro i
    rw [h'.grants, h.grants, Nat.add_assoc]
  · intro a ha
    rw [h'.kept a (by rw [h.allocated]; omega), h.kept a ha]

theorem give (h : After m s r k) (b : β) :
  After m (s.give b) (r + 1) (k + 1)
  := by
  refine ⟨?_, ?_, ?_⟩
  · rw [allocated_give, h.allocated, Nat.add_assoc]
  · intro i
    rw [grants_give, h.grants, Nat.add_assoc, Nat.add_comm 1]
  · intro a ha
    rw [blocks_give, Function.update_of_ne (by rw [h.allocated]; omega), h.kept a ha]

theorem refuse (h : After m s r k) :
  After m s.refuse (r + 1) k
  := by
  refine ⟨h.allocated, ?_, h.kept⟩
  intro i
  rw [grants_refuse, h.grants, Nat.add_assoc, Nat.add_comm 1]

theorem alter (h : After m s r k) (ha : m.allocated ≤ a) (f : β → Option β) :
  After m (s.alter a f) r k
  := by
  refine ⟨h.allocated, h.grants, ?_⟩
  intro a' ha'
  rw [blocks_alter, Function.update_of_ne (by omega), h.kept a' ha']

/-- A live block is live afterwards. -/
theorem live (h : After m s r k) (hb : m.blocks a = some b) :
  s.blocks a = some b
  := by
  rw [h.kept a (Memory.lt_of_live hb), hb]

end After

/-! ### Programs that make something out of several blocks -/

variable {n : ℕ} {x : Exec (Memory β) Ptr} {Whole : Ptr → Memory β → Prop}

/-- The program `x` makes something out of `n` requests or leaves the blocks as they were.  If all
of the requests are granted, it returns a pointer to what `Whole` describes; and if one is refused,
it returns the null pointer and the blocks are the same. -/
def FailsCleanly (n : ℕ) (m : Memory β) (x : Exec (Memory β) Ptr)
    (Whole : Ptr → Memory β → Prop) : Prop :=
  Returns m x fun p s =>
    ((∀ i < n, m.grants i = true) → Whole p s) ∧
      ((∃ i < n, m.grants i = false) → p = none ∧ s.blocks = m.blocks)

/-- A program that never returns the null pointer and the same blocks once the first request is
granted fails cleanly only if the first request is refused, or none. -/
theorem failsCleanly_iff (hn : 0 < n)
    (hfirst : m.grants 0 = false → x m = .done none m.refuse)
    (hwhole : (∀ i < n, m.grants i = true) → Returns m x Whole)
    (hlater : m.grants 0 = true → ¬ Returns m x fun p s => p = none ∧ s.blocks = m.blocks) :
  FailsCleanly n m x Whole ↔ m.grants 0 = false ∨ ∀ i < n, m.grants i = true
  := by
  constructor
  · intro h
    by_contra hnot
    rw [not_or, not_forall₂] at hnot
    obtain ⟨h₀, i, hi, hgrant⟩ := hnot
    apply hlater (eq_true_of_ne_false h₀)
    apply h.mono
    intro p s hps
    exact hps.2 ⟨i, hi, eq_false_of_ne_true hgrant⟩
  · rintro (h₀ | hall)
    · refine ⟨none, m.refuse, hfirst h₀, ?_, fun _ => ⟨rfl, rfl⟩⟩
      intro hall
      rw [hall 0 hn] at h₀
      cases h₀
    · apply (hwhole hall).mono
      intro p s hps
      refine ⟨fun _ => hps, ?_⟩
      rintro ⟨i, hi, hgrant⟩
      rw [hall i hi] at hgrant
      cases hgrant

end Blocks
