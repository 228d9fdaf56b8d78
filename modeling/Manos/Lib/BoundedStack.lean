import Mathlib.Data.List.GetD
import Mathlib.Logic.Function.Basic
import Manos.Lib.Objects

/-!
# Bounded stacks

A stack that holds at most `n` values, as a specification of its calls.  The values are listed
from the bottom, so that the last one is at the top.
-/

/-- The calls of a stack. -/
inductive StackCall (α : Type) where
  | push (a : α)
  | pop
  | top
deriving DecidableEq, Repr

/-- What the calls of a stack return: whether a value was pushed, and the value that was popped
or is at the top. -/
inductive StackResult (α : Type) where
  | pushed (ok : Bool)
  | value (a : Option α)
deriving DecidableEq, Repr

/-- The call was refused: the stack is full or empty. -/
def StackResult.Refused {α : Type} : StackResult α → Prop
  | pushed ok => ok = false
  | value a => a = none

/-- A stack that holds at most `n` values. -/
def boundedStack (α : Type) (n : Nat) : Exec.Spec (StackCall α) (List α) (StackResult α) where
  result
    | .push _, l => .pushed (l.length < n)
    | .pop, l => .value l.getLast?
    | .top, l => .value l.getLast?
  next
    | .push a, l => if l.length < n then l ++ [a] else l
    | .pop, l => l.dropLast
    | .top, l => l

namespace boundedStack

variable {α : Type} {l : List α}

/-! ### The places of a stack -/

/-- The places of a stack in memory, from the bottom, with `z` in those above the top. -/
def places (z : α) (l : List α) (i : Nat) : α := l.getD i z

variable {z : α}

theorem places_of_lt {i : Nat} (h : i < l.length) :
  places z l i = l[i]
  := List.getD_eq_getElem l z h

theorem places_of_ge {i : Nat} (h : l.length ≤ i) :
  places z l i = z
  := List.getD_eq_default l z h

theorem places_top (l : List α) (a : α) :
  places z (l ++ [a]) l.length = a
  := by
  rw [places_of_lt (by simp), List.getElem_concat_length rfl]

/-- A value is pushed onto the place above the top. -/
theorem places_push (l : List α) (a : α) :
  Function.update (places z l) l.length a = places z (l ++ [a])
  := by
  funext i
  by_cases hi : i = l.length
  · rw [hi, Function.update_self, places_top]
  · rw [Function.update_of_ne hi]
    rcases Nat.lt_or_gt_of_ne hi with hlt | hgt
    · exact (List.getD_append l [a] z i hlt).symm
    · have hge : (l ++ [a]).length ≤ i := by
        rw [List.length_append]
        exact hgt
      rw [places_of_ge (Nat.le_of_lt hgt), places_of_ge hge]

/-- A `z` at the top is like the places above it. -/
theorem places_pop (l : List α) :
  places z (l ++ [z]) = places z l
  := by
  rw [← places_push, Function.update_eq_self_iff, places_of_ge (Nat.le_refl _)]

end boundedStack
