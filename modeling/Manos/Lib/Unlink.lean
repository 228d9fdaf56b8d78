import Mathlib.Data.Nat.Notation
import Manos.Lib.Rings

/-!
# Taking a node off a list, store by store

`listUnlinkAndInit` as a sequence of loads and stores, which other code may come in between, and
memory with pending stores: calls that were interrupted still have stores to make, and the memory
is compared with the one in which they have been made.
-/

/-! ### Pending stores -/

/-- The call `i` is about to store at `y` if `pend i y` is some pair: of the value that is there
now and the one that will be there. In the memory `g` all these stores have been made, and in `f`
none of them. -/
structure Settled {ι α β : Type} (pend : ι → α → Option (β × β)) (f g : α → β) : Prop where
  pending : ∀ i y o z, pend i y = some (o, z) → f y = o ∧ g y = z
  same : ∀ y, (∀ i, pend i y = none) → g y = f y

namespace Settled

variable {ι α β : Type} {pend pend' : ι → α → Option (β × β)} {f g : α → β} {i : ι} {y : α} {z : β}

theorem congr (h : Settled pend f g) (hp : ∀ i, pend' i = pend i) :
  Settled pend' f g
  := by
  obtain rfl : pend' = pend := funext hp
  exact h

/-- No store is pending. -/
theorem of_none (f : α → β) :
  Settled (fun (_ : ι) _ => none) f f
  := ⟨nofun, fun _ _ => rfl⟩

/-- Memory without pending stores. -/
theorem eq_of_none (h : Settled pend f g) (hp : ∀ i y, pend i y = none) :
  g = f
  := funext fun y => h.same y fun i => hp i y

variable [DecidableEq α]

/-- Other code stores where no store is pending. -/
theorem update (h : Settled pend f g) (hy : ∀ i, pend i y = none) (z : β) :
  Settled pend (Function.update f y z) (Function.update g y z)
  := by
  constructor
  · intro i y' o z' hp
    have hne : y' ≠ y := by
      rintro rfl
      rw [hy i] at hp
      cases hp
    rw [Function.update_of_ne hne, Function.update_of_ne hne]
    exact h.pending i y' o z' hp
  · intro y' hp
    by_cases hyy : y' = y
    · rw [hyy, Function.update_self, Function.update_self]
    · rw [Function.update_of_ne hyy, Function.update_of_ne hyy]
      exact h.same y' hp

variable [DecidableEq ι]

/-- A call comes to have a store to make. -/
theorem post (h : Settled pend f g) (hy : ∀ j, pend j y = none) (z : β) :
  Settled (Function.update pend i (Function.update (pend i) y (some (f y, z)))) f
    (Function.update g y z)
  := by
  constructor
  · intro j y' o z' hp
    by_cases hyy : y' = y
    · subst hyy
      rw [Function.update_self]
      by_cases hj : j = i
      · rw [hj, Function.update_self, Function.update_self] at hp
        cases hp
        exact ⟨rfl, rfl⟩
      · rw [Function.update_of_ne hj, hy j] at hp
        cases hp
    · rw [Function.update_of_ne hyy]
      by_cases hj : j = i
      · rw [hj, Function.update_self, Function.update_of_ne hyy] at hp
        exact h.pending i y' o z' hp
      · rw [Function.update_of_ne hj] at hp
        exact h.pending j y' o z' hp
  · intro y' hp
    have hyy : y' ≠ y := by
      rintro rfl
      have := hp i
      rw [Function.update_self, Function.update_self] at this
      cases this
    rw [Function.update_of_ne hyy]
    apply h.same y'
    intro j
    have hj := hp j
    by_cases hji : j = i
    · rw [hji, Function.update_self, Function.update_of_ne hyy] at hj
      rw [hji]
      exact hj
    · rwa [Function.update_of_ne hji] at hj

/-- A call makes a store that it had to make. -/
theorem store {o : β} (h : Settled pend f g) (hi : pend i y = some (o, z))
    (hy : ∀ j, j ≠ i → pend j y = none) :
  Settled (Function.update pend i (Function.update (pend i) y none)) (Function.update f y z) g
  := by
  constructor
  · intro j y' o' z' hp
    have hyy : y' ≠ y := by
      rintro rfl
      by_cases hj : j = i
      · rw [hj, Function.update_self, Function.update_self] at hp
        cases hp
      · rw [Function.update_of_ne hj, hy j hj] at hp
        cases hp
    rw [Function.update_of_ne hyy]
    by_cases hj : j = i
    · rw [hj, Function.update_self, Function.update_of_ne hyy] at hp
      exact h.pending i y' o' z' hp
    · rw [Function.update_of_ne hj] at hp
      exact h.pending j y' o' z' hp
  · intro y' hp
    by_cases hyy : y' = y
    · rw [hyy, Function.update_self]
      exact (h.pending i y o z hi).2
    · rw [Function.update_of_ne hyy]
      apply h.same y'
      intro j
      have hj := hp j
      by_cases hji : j = i
      · rw [hji, Function.update_self, Function.update_of_ne hyy] at hj
        rw [hji]
        exact hj
      · rwa [Function.update_of_ne hji] at hj

end Settled

namespace Links

variable {ν : Type} {K K' : Links ν} {x : ν}

/-! ### The loads and stores -/

/-- Where a call that takes a node off its list is: what it has read, and what it does next. -/
inductive UnlinkPoint (ν : Type) where
  /-- `node->prev` is read -/
  | prev
  /-- `node->next` is read -/
  | next (prev : ν)
  /-- `next->prev = prev` -/
  | setPrev (prev next : ν)
  /-- `prev->next = next` -/
  | setNext (prev next : ν)
  /-- `node->next = node` -/
  | initNext (prev next : ν)
  /-- `node->prev = node` -/
  | initPrev (prev : ν)

variable [DecidableEq ν]

/-- `x->next = y` -/
def setNext (x y : ν) (K : Links ν) : Links ν := { K with next := Function.update K.next x y }

/-- `x->prev = y` -/
def setPrev (x y : ν) (K : Links ν) : Links ν := { K with prev := Function.update K.prev x y }

/-- One load or store of `listUnlinkAndInit(x)`, and where the call is after it, unless it has
returned. -/
def unlinkStep (x : ν) : UnlinkPoint ν → Links ν → Option (UnlinkPoint ν) × Links ν
  | .prev, K => (some (.next (K.prev x)), K)
  | .next p, K => (some (.setPrev p (K.next x)), K)
  | .setPrev p n, K => (some (.setNext p n), K.setPrev n p)
  | .setNext p n, K => (some (.initNext p n), K.setNext p n)
  | .initNext p _, K => (some (.initPrev p), K.setNext x x)
  | .initPrev _, K => (none, K.setPrev x x)

/-- The links when the rest of the call has run, and nothing has come in between. -/
def UnlinkPoint.finish (x : ν) : UnlinkPoint ν → Links ν → Links ν
  | prev, K => K.unlinkInit x
  | next p, K => (K.join p (K.next x)).init x
  | setPrev p n, K => (K.join p n).init x
  | setNext p n, K => (K.setNext p n).init x
  | initNext _ _, K => K.init x
  | initPrev _, K => K.setPrev x x

/-- Every load and store leads on to the end of the call. -/
theorem UnlinkPoint.finish_step (x : ν) (a : UnlinkPoint ν) (K : Links ν) :
  a.finish x K = match unlinkStep x a K with
    | (some b, K') => b.finish x K'
    | (none, K') => K'
  := by
  cases a with
  | prev => rfl
  | next p => rfl
  | setPrev p n => rfl
  | setNext p n => rfl
  | initNext p n => rfl
  | initPrev p => rfl

/-- How many loads and stores are left. -/
def UnlinkPoint.left : UnlinkPoint ν → ℕ
  | prev => 6
  | next _ => 5
  | setPrev _ _ => 4
  | setNext _ _ => 3
  | initNext _ _ => 2
  | initPrev _ => 1

theorem unlinkStep_left {a b : UnlinkPoint ν} (h : unlinkStep x a K = (some b, K')) :
  a.left = b.left + 1
  := by
  cases a with
  | initPrev p => cases h
  | _ =>
      cases h
      rfl

theorem unlinkStep_none {a : UnlinkPoint ν} (h : unlinkStep x a K = (none, K')) :
  ∃ p, a = .initPrev p ∧ K' = K.setPrev x x
  := by
  cases a with
  | initPrev p =>
      cases h
      exact ⟨p, rfl, rfl⟩
  | _ => cases h

/-- What the call has read of `node->prev` and has still to use. -/
def UnlinkPoint.loaded : UnlinkPoint ν → Option ν
  | next p | setPrev p _ | setNext p _ => some p
  | _ => none

/-- What the call has read is the node itself. -/
def UnlinkPoint.Self (x : ν) : UnlinkPoint ν → Prop
  | next p => p = x
  | setPrev p n | setNext p n => p = x ∧ n = x
  | _ => True

/-- A node that is linked to itself stays so. -/
theorem UnlinkPoint.Self.step {a : UnlinkPoint ν} {u : Option (UnlinkPoint ν)} (h : a.Self x)
    (hx : K.Alone x) (hs : unlinkStep x a K = (u, K')) :
  K' = K ∧ ∀ b, u = some b → b.Self x
  := by
  have hnext : K.setNext x x = K := by
    have hsame : Function.update K.next x x = K.next := by
      rw [Function.update_eq_self_iff, hx.1]
    rw [Links.setNext, hsame]
  have hprev : K.setPrev x x = K := by
    have hsame : Function.update K.prev x x = K.prev := by
      rw [Function.update_eq_self_iff, hx.2]
    rw [Links.setPrev, hsame]
  cases a with
  | prev =>
      cases hs
      exact ⟨rfl, by rintro _ ⟨⟩; exact hx.2⟩
  | next p =>
      cases hs
      exact ⟨rfl, by rintro _ ⟨⟩; exact ⟨h, hx.1⟩⟩
  | setPrev p n =>
      obtain ⟨rfl, rfl⟩ := h
      cases hs
      exact ⟨hprev, by rintro _ ⟨⟩; exact ⟨rfl, rfl⟩⟩
  | setNext p n =>
      obtain ⟨rfl, rfl⟩ := h
      cases hs
      exact ⟨hnext, by rintro _ ⟨⟩; trivial⟩
  | initNext p n =>
      cases hs
      exact ⟨hnext, by rintro _ ⟨⟩; trivial⟩
  | initPrev p =>
      cases hs
      exact ⟨hprev, nofun⟩

/-! ### The pending stores of a call -/

/-- The call has made its first store. -/
def UnlinkPoint.Begun : UnlinkPoint ν → Prop
  | setNext _ _ | initNext _ _ | initPrev _ => True
  | _ => False

/-- The stores into the `next` fields that a call that has begun has still to make. -/
def UnlinkPoint.pendingNext (x : ν) : UnlinkPoint ν → ν → Option (ν × ν)
  | setNext p n => Function.update (Function.update (fun _ => none) p (some (x, n))) x (some (n, x))
  | initNext _ n => Function.update (fun _ => none) x (some (n, x))
  | _ => fun _ => none

/-- The stores into the `prev` fields that a call that has begun has still to make. -/
def UnlinkPoint.pendingPrev (x : ν) : UnlinkPoint ν → ν → Option (ν × ν)
  | setNext p _ | initNext p _ | initPrev p => Function.update (fun _ => none) x (some (p, x))
  | _ => fun _ => none

end Links
