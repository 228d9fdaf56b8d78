import Mathlib.Data.List.Nodup
import Mathlib.Data.Set.Defs
import Mathlib.Logic.Function.Basic

/-!
# Slots that hold objects

A slot is free, or it holds an object.  The objects that are held belong to a set, and no two slots
hold the same one.  So a slot may take an object that no slot holds, and the object of a slot that
gives it up is in no other slot.
-/

namespace Slots

variable {ι α : Type} {f : ι → Option α} {S T : Set α} {i : ι} {a : α}

/-- The slots hold objects of the set `S`, no two of them the same. -/
structure Distinct (f : ι → Option α) (S : Set α) : Prop where
  mem : ∀ i a, f i = some a → a ∈ S
  inj : ∀ i j a, f i = some a → f j = some a → i = j

/-- The objects that are held belong to another set. -/
theorem Distinct.mono (h : Distinct f S) (hST : ∀ i a, f i = some a → a ∈ S → a ∈ T) :
  Distinct f T
  := ⟨fun i a hi => hST i a hi (h.mem i a hi), h.inj⟩

/-- The slots and their objects are those of a list in which no object is twice. -/
theorem Distinct.of_pairs {l : List (ι × α)} (hl : (l.map Prod.snd).Nodup)
    (hf : ∀ i a, f i = some a → (i, a) ∈ l) :
  Distinct f {a | a ∈ l.map Prod.snd}
  where
  mem i a hi := List.mem_map.mpr ⟨(i, a), hf i a hi, rfl⟩
  inj i j a hi hj := congrArg Prod.fst (List.inj_on_of_nodup_map hl (hf i a hi) (hf j a hj) rfl)

variable [DecidableEq ι]

/-- A slot takes an object that no slot holds. -/
theorem Distinct.put (h : Distinct f S) (hnew : ∀ j, f j ≠ some a) (ha : a ∈ S) :
  Distinct (Function.update f i (some a)) S
  := by
  have hold : ∀ j b, Function.update f i (some a) j = some b → j = i ∧ b = a ∨ f j = some b := by
    intro j b hj
    by_cases hij : j = i
    · subst hij
      rw [Function.update_self] at hj
      exact .inl ⟨rfl, (Option.some.inj hj).symm⟩
    · rw [Function.update_of_ne hij] at hj
      exact .inr hj
  constructor
  · intro j b hj
    obtain ⟨-, rfl⟩ | hj := hold j b hj
    · exact ha
    · exact h.mem j b hj
  · intro j k b hj hk
    obtain ⟨hji, hba⟩ | hj' := hold j b hj
    · obtain ⟨hki, -⟩ | hk' := hold k b hk
      · exact hji.trans hki.symm
      · exact absurd (hba ▸ hk') (hnew k)
    · obtain ⟨-, hba⟩ | hk' := hold k b hk
      · exact absurd (hba ▸ hj') (hnew j)
      · exact h.inj j k b hj' hk'

/-- A slot gives its object up. -/
theorem Distinct.clear (h : Distinct f S) (hi : f i = some a) :
  Distinct (Function.update f i none) {b | b ∈ S ∧ b ≠ a}
  := by
  have hold : ∀ j b, Function.update f i none j = some b → j ≠ i ∧ f j = some b := by
    intro j b hj
    by_cases hij : j = i
    · subst hij
      rw [Function.update_self] at hj
      cases hj
    · rw [Function.update_of_ne hij] at hj
      exact ⟨hij, hj⟩
  constructor
  · intro j b hj
    obtain ⟨hij, hj⟩ := hold j b hj
    refine ⟨h.mem j b hj, ?_⟩
    rintro rfl
    exact hij (h.inj j i b hj hi)
  · intro j k b hj hk
    exact h.inj j k b (hold j b hj).2 (hold k b hk).2

end Slots
