import Mathlib.Data.List.Nodup
import Mathlib.Logic.Function.Basic

/-!
# Singly linked lists

The link of a node leads to the next node, or to none.  `Threads next p l` says that the nodes `l`
are found when the links are followed from the pointer `p` on.
-/

/-- The nodes `l` are found from the pointer `p` on, in this order, and no others. -/
def Threads {ν : Type} (next : ν → Option ν) : Option ν → List ν → Prop
  | p, [] => p = none
  | p, x :: l => p = some x ∧ Threads next (next x) l

namespace Threads

variable {ν : Type} {next next' : ν → Option ν} {p q : Option ν} {x : ν} {l l₁ l₂ : List ν}

/-- The pointer to a list is that to its first node. -/
theorem eq_head? (h : Threads next p l) :
  p = l.head?
  := by
  cases l with
  | nil => exact h
  | cons x l => exact h.1

/-- A list depends on the links of its nodes. -/
theorem frame (h : Threads next p l) (hs : ∀ y ∈ l, next' y = next y) :
  Threads next' p l
  := by
  induction l generalizing p with
  | nil => exact h
  | cons x l ih =>
      refine ⟨h.1, ?_⟩
      rw [hs x List.mem_cons_self]
      apply ih h.2
      intro y hy
      apply hs y (List.mem_cons_of_mem _ hy)

/-- Two lists become one when the link of the last node of the first leads to the second. -/
theorem splice [DecidableEq ν] (h₁ : Threads next p (l₁ ++ [x])) (h₂ : Threads next q l₂)
    (hnd : (l₁ ++ [x] ++ l₂).Nodup) :
  Threads (Function.update next x q) p (l₁ ++ [x] ++ l₂)
  := by
  rw [List.append_assoc] at hnd ⊢
  have hx : x ∉ l₁ := by
    intro hmem
    exact (List.nodup_append.mp hnd).2.2 x hmem x List.mem_cons_self rfl
  have hx₂ : x ∉ l₂ := (List.nodup_cons.mp (List.nodup_append.mp hnd).2.1).1
  clear hnd
  induction l₁ generalizing p with
  | nil =>
      refine ⟨h₁.1, ?_⟩
      rw [Function.update_self]
      apply h₂.frame
      intro y hy
      apply Function.update_of_ne
      rintro rfl
      apply hx₂ hy
  | cons y l₁ ih =>
      rw [List.mem_cons, not_or] at hx
      refine ⟨h₁.1, ?_⟩
      rw [Function.update_of_ne (Ne.symm hx.1)]
      exact ih h₁.2 hx.2

end Threads
