import Mathlib.Tactic.Common
import Mathlib.Data.List.Nodup

/-!
# Chains whose nodes point back at the pointer that refers to them

A chain is threaded through a memory of words from a pointer at an address `p`.  Every
node `x` has a word at `x + po` with the address of the pointer that refers to it, and a
word at `x + no` with the pointer to the next node; the last pointer is `0`.  A memory is
given by the function `ld` from addresses to words.

The two edits of a chain are `Chain.remove` and `Chain.insert`: the hypotheses say what
the words at the seam have to hold, and that the other words of the chain are as before.
-/

namespace PtrChain

variable (po no : Nat)

/-- The words of `ld` at `p` and at the nodes `l` thread the chain `l` from `p` on. -/
def Chain (ld : Nat → Nat) : Nat → List Nat → Prop
  | p, [] => ld p = 0
  | p, x :: l => ld p = x ∧ ld (x + po) = p ∧ Chain ld (x + no) l

/-- The addresses of the words of a chain. -/
def words : Nat → List Nat → List Nat
  | p, [] => [p]
  | p, x :: l => p :: (x + po) :: words (x + no) l

/-- The address of the pointer behind the nodes `l`. -/
def slot : Nat → List Nat → Nat
  | p, [] => p
  | _, x :: l => slot (x + no) l

/-- The first node, or `0`. -/
def head : List Nat → Nat
  | [] => 0
  | x :: _ => x

variable {po no} {ld ld' : Nat → Nat} {p : Nat} {l : List Nat}

theorem head_eq_of_mem {z : Nat} (h : z ∈ l.head?) :
  head l = z
  := by
  cases l with
  | nil => cases h
  | cons x l =>
      cases h
      rfl

theorem head_mem_head? (h : head l ≠ 0) :
  head l ∈ l.head?
  := by
  cases l with
  | nil => apply absurd rfl h
  | cons x l => rfl

/-! ### Words -/

theorem mem_words {w : Nat} :
  w ∈ words po no p l ↔ w = p ∨ ∃ x ∈ l, w = x + po ∨ w = x + no
  := by
  induction l generalizing p with
  | nil => simp [words]
  | cons x l ih =>
      simp only [words, List.mem_cons, ih, exists_eq_or_imp, or_assoc]

theorem slot_append (l₁ l₂ : List Nat) :
  slot no p (l₁ ++ l₂) = slot no (slot no p l₁) l₂
  := by
  induction l₁ generalizing p with
  | nil => rfl
  | cons x l₁ ih =>
      rw [List.cons_append, slot, slot]
      apply ih

theorem slot_mem_words (l₁ l₂ : List Nat) :
  slot no p l₁ ∈ words po no p (l₁ ++ l₂)
  := by
  induction l₁ generalizing p with
  | nil =>
      apply mem_words.mpr
      left
      rfl
  | cons x l₁ ih =>
      rw [List.cons_append, words, slot]
      apply List.mem_cons_of_mem
      apply List.mem_cons_of_mem
      apply ih

/-- The words of a chain are apart when the nodes are, and the fields of the nodes. -/
theorem words_nodup (hl : l.Nodup) (hpo : ∀ x ∈ l, x + po ≠ p) (hno : ∀ x ∈ l, x + no ≠ p)
    (hne : ∀ x ∈ l, ∀ y ∈ l, x + po ≠ y + no) :
  (words po no p l).Nodup
  := by
  induction l generalizing p with
  | nil => simp [words]
  | cons x l ih =>
      obtain ⟨hx, hl⟩ := List.nodup_cons.mp hl
      have hrest : (words po no (x + no) l).Nodup := by
        apply ih hl
        · intro y hy
          apply hne y (List.mem_cons_of_mem _ hy) x List.mem_cons_self
        · intro y hy h
          have hyx : y = x := by omega
          rw [hyx] at hy
          apply hx hy
        · intro y hy z hz
          apply hne y (List.mem_cons_of_mem _ hy) z (List.mem_cons_of_mem _ hz)
      rw [words, List.nodup_cons, List.nodup_cons]
      refine ⟨?_, ?_, hrest⟩
      · intro h
        rcases List.mem_cons.mp h with h | h
        · apply hpo x List.mem_cons_self h.symm
        · rcases mem_words.mp h with h | ⟨y, hy, h | h⟩
          · apply hno x List.mem_cons_self h.symm
          · apply hpo y (List.mem_cons_of_mem _ hy) h.symm
          · apply hno y (List.mem_cons_of_mem _ hy) h.symm
      · intro h
        rcases mem_words.mp h with h | ⟨y, hy, h | h⟩
        · apply hne x List.mem_cons_self x List.mem_cons_self h
        · have hyx : y = x := by omega
          rw [hyx] at hy
          apply hx hy
        · apply hne x List.mem_cons_self y (List.mem_cons_of_mem _ hy) h

/-! ### Reading a chain -/

/-- A chain stays a chain in a memory with the same words. -/
theorem Chain.frame (h : Chain po no ld p l) (hw : ∀ w ∈ words po no p l, ld' w = ld w) :
  Chain po no ld' p l
  := by
  induction l generalizing p with
  | nil =>
      apply Eq.trans (hw p List.mem_cons_self) h
  | cons x l ih =>
      obtain ⟨h₁, h₂, h₃⟩ := h
      simp only [words, List.mem_cons, forall_eq_or_imp] at hw
      refine ⟨?_, ?_, ?_⟩
      · rw [hw.1, h₁]
      · rw [hw.2.1, h₂]
      · apply ih h₃ hw.2.2

/-- The pointer a chain starts at refers to its first node. -/
theorem Chain.load (h : Chain po no ld p l) :
  ld p = head l
  := by
  cases l with
  | nil => apply h
  | cons x l => apply h.1

/-- The part of a chain behind some of its nodes. -/
theorem Chain.tail {l₁ l₂ : List Nat} (h : Chain po no ld p (l₁ ++ l₂)) :
  Chain po no ld (slot no p l₁) l₂
  := by
  induction l₁ generalizing p with
  | nil => apply h
  | cons x l₁ ih =>
      obtain ⟨-, -, h⟩ := h
      apply ih h

/-- The pointer behind some nodes refers to the next node. -/
theorem Chain.load_slot {l₁ l₂ : List Nat} (h : Chain po no ld p (l₁ ++ l₂)) :
  ld (slot no p l₁) = head l₂
  := h.tail.load

/-- A node points back at the pointer before it. -/
theorem Chain.load_back {l₁ l₂ : List Nat} {x : Nat} (h : Chain po no ld p (l₁ ++ x :: l₂)) :
  ld (x + po) = slot no p l₁
  := h.tail.2.1

/-- A node points at the next node. -/
theorem Chain.load_next {l₁ l₂ : List Nat} {x : Nat} (h : Chain po no ld p (l₁ ++ x :: l₂)) :
  ld (x + no) = head l₂
  := h.tail.2.2.load

/-! ### Editing a chain -/

/-- A chain is moved to another pointer that holds the same. -/
theorem Chain.move {q : Nat} (h : Chain po no ld p l) (hq : ld' q = head l)
    (hback : ∀ x ∈ l.head?, ld' (x + po) = q)
    (hw : ∀ w ∈ words po no p l, w ≠ p → (∀ x ∈ l.head?, w ≠ x + po) → ld' w = ld w)
    (hnd : (words po no p l).Nodup) :
  Chain po no ld' q l
  := by
  cases l with
  | nil => apply hq
  | cons x l =>
      obtain ⟨-, -, h⟩ := h
      simp only [words, List.nodup_cons, List.mem_cons, not_or] at hnd
      refine ⟨hq, hback x rfl, ?_⟩
      apply h.frame
      intro w hmem
      apply hw w
      · simp only [words, List.mem_cons]
        right
        right
        apply hmem
      · rintro rfl
        apply hnd.1.2 hmem
      · rintro y hy rfl
        simp only [List.head?_cons, Option.mem_def, Option.some.injEq] at hy
        subst hy
        apply hnd.2.1 hmem

/-- Remove the node `y`: the pointer before it takes over its pointer to the next node,
and the next node points back there. -/
theorem Chain.remove {l₁ l₂ : List Nat} {y : Nat} (h : Chain po no ld p (l₁ ++ y :: l₂))
    (hnd : (words po no p (l₁ ++ y :: l₂)).Nodup)
    (hslot : ld' (slot no p l₁) = head l₂)
    (hback : ∀ z ∈ l₂.head?, ld' (z + po) = slot no p l₁)
    (hw : ∀ w ∈ words po no p (l₁ ++ y :: l₂), w ≠ slot no p l₁ → w ≠ y + po → w ≠ y + no →
      (∀ z ∈ l₂.head?, w ≠ z + po) → ld' w = ld w) :
  Chain po no ld' p (l₁ ++ l₂)
  := by
  induction l₁ generalizing p with
  | nil =>
      obtain ⟨-, -, h⟩ := h
      simp only [List.nil_append, words, List.nodup_cons, List.mem_cons, not_or] at hnd
      apply h.move hslot hback _ hnd.2.2
      intro w hmem hne hz
      apply hw w
      · simp only [List.nil_append, words, List.mem_cons]
        right
        right
        apply hmem
      · rintro rfl
        apply hnd.1.2 hmem
      · rintro rfl
        apply hnd.2.1 hmem
      · apply hne
      · apply hz
  | cons x l₁ ih =>
      obtain ⟨h₁, h₂, h⟩ := h
      simp only [List.cons_append, words, List.nodup_cons, List.mem_cons, not_or] at hnd
      simp only [List.cons_append, words, List.mem_cons, forall_eq_or_imp] at hw
      have hslot_mem : slot no (x + no) l₁ ∈ words po no (x + no) (l₁ ++ y :: l₂) :=
        slot_mem_words _ _
      have hpo : y + po ∈ words po no (x + no) (l₁ ++ y :: l₂) :=
        mem_words.mpr (.inr ⟨y, by simp, .inl rfl⟩)
      have hno : y + no ∈ words po no (x + no) (l₁ ++ y :: l₂) :=
        mem_words.mpr (.inr ⟨y, by simp, .inr rfl⟩)
      have hz : ∀ z ∈ l₂.head?, z + po ∈ words po no (x + no) (l₁ ++ y :: l₂) := by
        intro z hz
        apply mem_words.mpr
        right
        use z
        have := List.mem_of_mem_head? hz
        simp [this]
      refine ⟨?_, ?_, ?_⟩
      · rw [hw.1]
        · apply h₁
        · intro heq
          apply hnd.1.2
          rw [heq]
          apply hslot_mem
        · rintro rfl
          apply hnd.1.2 hpo
        · rintro rfl
          apply hnd.1.2 hno
        · rintro z hmem rfl
          apply hnd.1.2 (hz z hmem)
      · rw [hw.2.1]
        · apply h₂
        · intro heq
          apply hnd.2.1
          rw [heq]
          apply hslot_mem
        · intro heq
          apply hnd.2.1
          rw [heq]
          apply hpo
        · intro heq
          apply hnd.2.1
          rw [heq]
          apply hno
        · intro z hmem heq
          apply hnd.2.1
          rw [heq]
          apply hz z hmem
      · apply ih h hnd.2.2 hslot hback hw.2.2

/-- Insert the node `x`: the pointer at its place refers to it, and it refers to the node
that was there, which points back at it. -/
theorem Chain.insert {l₁ l₂ : List Nat} {x : Nat} (h : Chain po no ld p (l₁ ++ l₂))
    (hnd : (words po no p (l₁ ++ l₂)).Nodup)
    (hslot : ld' (slot no p l₁) = x) (hx : ld' (x + po) = slot no p l₁)
    (hnext : ld' (x + no) = head l₂) (hback : ∀ z ∈ l₂.head?, ld' (z + po) = x + no)
    (hw : ∀ w ∈ words po no p (l₁ ++ l₂), w ≠ slot no p l₁ →
      (∀ z ∈ l₂.head?, w ≠ z + po) → ld' w = ld w) :
  Chain po no ld' p (l₁ ++ x :: l₂)
  := by
  induction l₁ generalizing p with
  | nil =>
      refine ⟨hslot, hx, ?_⟩
      apply h.move hnext hback hw hnd
  | cons y l₁ ih =>
      obtain ⟨h₁, h₂, h⟩ := h
      simp only [List.cons_append, words, List.nodup_cons, List.mem_cons, not_or] at hnd
      simp only [List.cons_append, words, List.mem_cons, forall_eq_or_imp] at hw
      have hslot_mem : slot no (y + no) l₁ ∈ words po no (y + no) (l₁ ++ l₂) :=
        slot_mem_words _ _
      have hz : ∀ z ∈ l₂.head?, z + po ∈ words po no (y + no) (l₁ ++ l₂) := by
        intro z hz
        apply mem_words.mpr
        right
        use z
        have := List.mem_of_mem_head? hz
        simp [this]
      refine ⟨?_, ?_, ?_⟩
      · rw [hw.1]
        · apply h₁
        · intro heq
          apply hnd.1.2
          rw [heq]
          apply hslot_mem
        · rintro z hmem rfl
          apply hnd.1.2 (hz z hmem)
      · rw [hw.2.1]
        · apply h₂
        · intro heq
          apply hnd.2.1
          rw [heq]
          apply hslot_mem
        · intro z hmem heq
          apply hnd.2.1
          rw [heq]
          apply hz z hmem
      · apply ih h hnd.2.2 hslot hx hw.2.2

end PtrChain
