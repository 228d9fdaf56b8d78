import Mathlib.Algebra.BigOperators.Group.Finset.Piecewise
import Mathlib.Data.Int.Cast.Basic
import Mathlib.Tactic.SplitIfs

/-!
# Counted references

Every owner of a finite type refers to at most one object.  An object keeps a counter, the number
of owners that refer to it, and it is freed when the last of them gives up its reference.
-/

namespace References

variable {ι α : Type} [Fintype ι] [DecidableEq α]
variable {f : ι → Option α} {c : α → Option ℤ} {i : ι} {a b : α}

/-- The number of owners that refer to `a` -/
def count (f : ι → Option α) (a : α) : ℕ := (Finset.univ.filter fun i => f i = some a).card

/-- An object with `n` references: its counter, unless it is freed -/
def counter (n : ℤ) : Option ℤ := if n = 0 then none else some n

/-- Every counter is the number of references to its object, and the objects without references
are freed. -/
def Counted (f : ι → Option α) (c : α → Option ℤ) : Prop := ∀ a, c a = counter (count f a)

/-- A reference to `a` is given up. -/
def release (c : α → Option ℤ) (a : α) : α → Option ℤ :=
  Function.update c a ((c a).bind fun n => counter (n - 1))

/-- A reference to `a` is taken. -/
def retain (c : α → Option ℤ) (a : α) : α → Option ℤ :=
  Function.update c a ((c a).map fun n => n + 1)

/-! ### Counting -/

theorem counter_eq_none_iff {n : ℤ} :
  counter n = none ↔ n = 0
  := by
  rw [counter]
  split_ifs with h
  · exact iff_of_true rfl h
  · exact iff_of_false nofun h

theorem counter_of_ne {n : ℤ} (h : n ≠ 0) :
  counter n = some n
  := if_neg h

theorem count_eq_zero_iff :
  count f a = 0 ↔ ∀ i, f i ≠ some a
  := by
  rw [count, Finset.card_eq_zero, Finset.filter_eq_empty_iff]
  constructor
  · intro h i
    exact h (Finset.mem_univ i)
  · intro h i _
    exact h i

theorem count_ne_zero (h : f i = some a) :
  count f a ≠ 0
  := by
  intro hzero
  exact count_eq_zero_iff.mp hzero i h

variable [DecidableEq ι]

/-- The owner `i` changes its reference to `x`: its object loses an owner, and that of `x` gets
one. -/
theorem count_update (f : ι → Option α) (i : ι) (x : Option α) (a : α) :
  count (Function.update f i x) a + (if f i = some a then 1 else 0) =
    count f a + (if x = some a then 1 else 0)
  := by
  have hrest : ∀ j ∈ Finset.univ.erase i, (if Function.update f i x j = some a then 1 else 0) =
      if f j = some a then 1 else 0 := by
    intro j hj
    rw [Function.update_of_ne (Finset.ne_of_mem_erase hj)]
  rw [count, count, Finset.card_filter, Finset.card_filter,
    ← Finset.add_sum_erase _ _ (Finset.mem_univ i), Finset.sum_congr rfl hrest,
    Function.update_self, ← Finset.add_sum_erase _ _ (Finset.mem_univ i)]
  omega

/-- The owner is the last one exactly if there is none when it has given up its reference. -/
theorem count_eq_one_iff (h : f i = some a) :
  count f a = 1 ↔ ∀ j, f j = some a → j = i
  := by
  have hcount := count_update f i none a
  rw [if_pos h, if_neg nofun] at hcount
  have hone : count f a = 1 ↔ count (Function.update f i none) a = 0 := by omega
  rw [hone, count_eq_zero_iff]
  constructor
  · intro hnone j hj
    by_contra hji
    apply hnone j
    rwa [Function.update_of_ne hji]
  · intro honly j hj
    by_cases hji : j = i
    · rw [hji, Function.update_self] at hj
      cases hj
    · rw [Function.update_of_ne hji] at hj
      exact hji (honly j hj)

/-! ### Objects that are counted -/

namespace Counted

omit [DecidableEq ι] in
theorem eq_none_iff (h : Counted f c) :
  c a = none ↔ ∀ i, f i ≠ some a
  := by
  rw [h a, counter_eq_none_iff, Int.natCast_eq_zero, count_eq_zero_iff]

omit [DecidableEq ι] in
/-- An object that is referred to is not freed, and has its number of references. -/
theorem eq_some (h : Counted f c) (hi : f i = some a) :
  c a = some (count f a : ℤ)
  := by
  rw [h a, counter_of_ne]
  exact Int.natCast_ne_zero.mpr (count_ne_zero hi)

/-- An owner gives up its reference. -/
theorem release (h : Counted f c) (hi : f i = some a) :
  Counted (Function.update f i none) (release c a)
  := by
  intro b
  have hcount := count_update f i none b
  rw [if_neg (nofun : none ≠ some b)] at hcount
  by_cases hba : b = a
  · subst hba
    rw [if_pos hi] at hcount
    have hminus : (count f b : ℤ) - 1 = count (Function.update f i none) b := by omega
    rw [References.release, Function.update_self, h.eq_some hi, Option.bind_some, hminus]
  · have hne : f i ≠ some b := by
      rw [hi]
      intro heq
      exact hba (Option.some.inj heq).symm
    rw [if_neg hne] at hcount
    have hsame : count (Function.update f i none) b = count f b := by omega
    rw [References.release, Function.update_of_ne hba, h b, hsame]

/-- The object is freed exactly if the owner was the last one. -/
theorem release_eq_none_iff (h : Counted f c) (hi : f i = some a) :
  References.release c a a = none ↔ ∀ j, f j = some a → j = i
  := by
  rw [← count_eq_one_iff hi, References.release, Function.update_self, h.eq_some hi,
    Option.bind_some, counter_eq_none_iff]
  omega

/-- An owner without reference takes one to an object that it did not refer to. -/
theorem put {c' : α → Option ℤ} (h : Counted f c) (hi : f i = none)
    (hself : c' a = some ((count f a : ℤ) + 1)) (hother : ∀ b, b ≠ a → c' b = c b) :
  Counted (Function.update f i (some a)) c'
  := by
  intro b
  have hcount := count_update f i (some a) b
  have hne : f i ≠ some b := by
    rw [hi]
    nofun
  rw [if_neg hne] at hcount
  by_cases hba : b = a
  · subst hba
    rw [if_pos rfl] at hcount
    have hplus : (count f b : ℤ) + 1 = count (Function.update f i (some b)) b := by omega
    rw [hself, hplus, counter_of_ne]
    omega
  · have hne' : some a ≠ some b := by
      intro heq
      exact hba (Option.some.inj heq).symm
    rw [if_neg hne'] at hcount
    have hsame : count (Function.update f i (some a)) b = count f b := by omega
    rw [hother b hba, h b, hsame]

/-- An owner takes a reference to an object that is not freed. -/
theorem retain (h : Counted f c) (hi : f i = none) (ha : c a ≠ none) :
  Counted (Function.update f i (some a)) (retain c a)
  := by
  refine h.put hi ?_ fun b hb => Function.update_of_ne hb _ _
  have hne := ha
  rw [h a, Ne, counter_eq_none_iff] at hne
  rw [References.retain, Function.update_self, h a, counter_of_ne hne, Option.map_some]

/-- An owner takes the first reference to an object. -/
theorem create (h : Counted f c) (hi : f i = none) (ha : c a = none) :
  Counted (Function.update f i (some a)) (Function.update c a (some 1))
  := by
  refine h.put hi ?_ fun b hb => Function.update_of_ne hb _ _
  have hzero : count f a = 0 := count_eq_zero_iff.mpr (h.eq_none_iff.mp ha)
  rw [Function.update_self, hzero]
  rfl

end Counted

end References
