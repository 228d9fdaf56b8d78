import Mathlib.Data.Nat.Notation
import Mathlib.Logic.Function.Basic
import Mathlib.Tactic.Common

/-!
# Circular buffers

A buffer of `m` places, which is read and written from some place on and continues at its start
behind its end.
-/

namespace Circular

variable {α : Type} {m r n : ℕ}

/-- The `n` elements from the place `r` on. -/
def slice (buf : ℕ → α) (m r n : ℕ) : List α :=
  (List.range n).map fun i => buf ((r + i) % m)

@[simp]
theorem length_slice (buf : ℕ → α) (m r n : ℕ) :
  (slice buf m r n).length = n
  := by
  rw [slice, List.length_map, List.length_range]

/-- Places at different distances below `m` are different. -/
theorem place_ne {i j : ℕ} (hij : i < j) (hj : j < m) :
  (r + i) % m ≠ (r + j) % m
  := by
  intro h
  have hzero : ((r + j) - (r + i)) % m = 0 := Nat.sub_mod_eq_zero_of_mod_eq h.symm
  rw [Nat.mod_eq_of_lt (by omega)] at hzero
  omega

/-- A store behind the elements adds one. -/
theorem slice_push (buf : ℕ → α) (x : α) (h : n < m) :
  slice (Function.update buf ((r + n) % m) x) m r (n + 1) = slice buf m r n ++ [x]
  := by
  rw [slice, List.range_succ, List.map_append, List.map_singleton, Function.update_self]
  congr 1
  apply List.map_congr_left
  intro i hi
  rw [List.mem_range] at hi
  rw [Function.update_of_ne (place_ne hi h)]

/-- The first element, and the elements after it. -/
theorem slice_pop (buf : ℕ → α) (hr : r < m) :
  slice buf m r (n + 1) = buf r :: slice buf m ((r + 1) % m) n
  := by
  rw [slice, List.range_succ_eq_map, List.map_cons, List.map_map, Nat.add_zero,
    Nat.mod_eq_of_lt hr]
  congr 1
  apply List.map_congr_left
  intro i _
  rw [Function.comp_apply, Nat.mod_add_mod]
  congr 2
  omega

/-- The next place is behind a place, or it is the first. -/
theorem next_cases (h : r < m) :
  (r + 1) % m = r + 1 ∧ r + 1 < m ∨ (r + 1) % m = 0 ∧ r + 1 = m
  := by
  rcases Nat.lt_or_ge (r + 1) m with hlt | hge
  · exact .inl ⟨Nat.mod_eq_of_lt hlt, hlt⟩
  · have hm : r + 1 = m := by omega
    exact .inr ⟨by rw [hm, Nat.mod_self], hm⟩

end Circular
