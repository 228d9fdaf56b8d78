import Mathlib.Data.List.Basic

/-!
# Paths through trees with mounts

A tree is given by its step function, which takes a node and a component of a path to the
next node, if there is one.  A node may be a mount, which stands for the node `enter v` of
another tree.  A path is resolved component by component, where every mount that is reached
is entered.  A walk that does not enter mounts advances along a path as far as it can, and
the resolution is put together from such walks.
-/

namespace Paths

variable {ν κ : Type} (step : ν → κ → Option ν) (mount : ν → Bool) (enter : ν → ν)

/-- The node that `v` stands for. -/
def entered (v : ν) : ν := if mount v then enter v else v

/-- The node that a path leads to when every mount on it is entered. -/
def resolve : ν → List κ → Option ν
  | v, [] => some v
  | v, c :: cs =>
      match step v c with
      | none => none
      | some w => resolve (entered mount enter w) cs

/-- The node that a walk without entering mounts gets to, and the rest of the path. -/
def advance : ν → List κ → ν × List κ
  | v, [] => (v, [])
  | v, c :: cs =>
      match step v c with
      | none => (v, c :: cs)
      | some w => advance w cs

/-- The nodes that a walk without entering mounts comes to. -/
def trail : ν → List κ → List ν
  | _, [] => []
  | v, c :: cs =>
      match step v c with
      | none => []
      | some w => w :: trail w cs

/-- Some mount on the path is entered at a node that is no directory, with components left. -/
def blocked (dir : ν → Bool) : ν → List κ → Bool
  | _, [] => false
  | v, c :: cs =>
      match step v c with
      | none => false
      | some w =>
          (mount w && !dir (enter w) && !cs.isEmpty) || blocked dir (entered mount enter w) cs

/--
The number of the walks along a path and of the mounts entered on it, where `fresh` tells
whether a new walk starts at the first component.
-/
def visits : Bool → ν → List κ → ℕ
  | _, _, [] => 0
  | fresh, v, c :: cs =>
      fresh.toNat + match step v c with
        | none => 0
        | some w => if mount w then 1 + visits true (enter w) cs else visits false w cs

variable {step mount enter}

/-! ### Walks -/

/-- A walk leaves a part of the path. -/
theorem advance_suffix (v : ν) (cs : List κ) :
  (advance step v cs).2 <:+ cs
  := by
  induction cs generalizing v with
  | nil => apply List.suffix_refl
  | cons c cs ih =>
      rw [advance]
      split
      · apply List.suffix_refl
      · apply (ih _).trans (List.suffix_cons c cs)

/-- A walk from a node without a first step stays. -/
theorem advance_of_none {v : ν} {c : κ} {cs : List κ} (h : step v c = none) :
  advance step v (c :: cs) = (v, c :: cs)
  := by
  rw [advance, h]

theorem advance_of_some {v w : ν} {c : κ} {cs : List κ} (h : step v c = some w) :
  advance step v (c :: cs) = advance step w cs
  := by
  rw [advance, h]

/-- A walk that ends at a mount has used a part of the path. -/
theorem advance_shorter {v : ν} {cs : List κ} (hv : ¬ mount v)
    (h : mount (advance step v cs).1) :
  (advance step v cs).2.length < cs.length
  := by
  cases cs with
  | nil => contradiction
  | cons c cs =>
      cases hs : step v c with
      | none =>
          rw [advance_of_none hs] at h
          contradiction
      | some w =>
          rw [advance_of_some hs, List.length_cons]
          apply Nat.lt_succ_of_le (advance_suffix w cs).length_le

/-! ### Trails -/

theorem trail_of_none {v : ν} {c : κ} {cs : List κ} (h : step v c = none) :
  trail step v (c :: cs) = []
  := by
  rw [trail, h]

theorem trail_of_some {v w : ν} {c : κ} {cs : List κ} (h : step v c = some w) :
  trail step v (c :: cs) = w :: trail step w cs
  := by
  rw [trail, h]

theorem length_trail_le (v : ν) (cs : List κ) :
  (trail step v cs).length ≤ cs.length
  := by
  induction cs generalizing v with
  | nil => apply Nat.le_refl
  | cons c cs ih =>
      cases h : step v c with
      | none =>
          rw [trail_of_none h]
          apply Nat.zero_le
      | some w =>
          rw [trail_of_some h]
          apply Nat.succ_le_succ (ih w)

/-- The nodes of a trail are the ones to which the parts of the path lead. -/
theorem getElem?_trail (v : ν) (cs : List κ) {k : ℕ} (hk : k < cs.length) :
  (trail step v cs)[k]? = (cs.take (k + 1)).foldlM step v
  := by
  induction cs generalizing v k with
  | nil => contradiction
  | cons c cs ih =>
      rw [List.take_succ_cons, List.foldlM_cons]
      cases h : step v c with
      | none =>
          rw [trail_of_none h]
          rfl
      | some w =>
          rw [trail_of_some h]
          cases k with
          | zero => rfl
          | succ k => apply ih w (Nat.lt_of_succ_lt_succ hk)

/-- The length of a trail is the number of the components that can be taken. -/
theorem le_length_trail_iff (v : ν) (cs : List κ) {k : ℕ} (hk : k ≤ cs.length) :
  k ≤ (trail step v cs).length ↔ ((cs.take k).foldlM step v).isSome
  := by
  cases k with
  | zero => simp
  | succ k => rw [← getElem?_trail v cs hk, Nat.succ_le_iff, isSome_getElem?]

/-- A walk gets to the last node of its trail. -/
theorem advance_eq (v : ν) (cs : List κ) :
  advance step v cs = ((trail step v cs).getLast?.getD v, cs.drop (trail step v cs).length)
  := by
  induction cs generalizing v with
  | nil => rfl
  | cons c cs ih =>
      cases h : step v c with
      | none =>
          rw [advance_of_none h, trail_of_none h]
          rfl
      | some w =>
          rw [advance_of_some h, trail_of_some h, ih w, List.getLast?_cons]
          rfl

/-- What every step keeps holds of the node that a walk gets to. -/
theorem advance_induction {P : ν → Prop} (hstep : ∀ v w c, P v → step v c = some w → P w) {v : ν}
    (h : P v) (cs : List κ) :
  P (advance step v cs).1
  := by
  induction cs generalizing v with
  | nil => exact h
  | cons c cs ih =>
      cases hs : step v c with
      | none =>
          rw [advance_of_none hs]
          exact h
      | some w =>
          rw [advance_of_some hs]
          exact ih (hstep v w c h hs)

/-! ### Mounts -/

variable (hm : ∀ v c, mount v → step v c = none)
include hm

/-- A walk from a mount stays. -/
theorem advance_mount {v : ν} (h : mount v) (cs : List κ) :
  advance step v cs = (v, cs)
  := by
  cases cs with
  | nil => rfl
  | cons c cs => apply advance_of_none (hm v c h)

variable (step) in
omit hm in
/-- A walk between mounts ends, or there is no way on, or it comes to a mount, or it goes on. -/
@[elab_as_elim]
theorem walk_induction {motive : ν → List κ → Prop} (ends : ∀ v, ¬ mount v → motive v [])
    (stuck : ∀ v c cs, ¬ mount v → step v c = none → motive v (c :: cs))
    (enters : ∀ v c cs w, ¬ mount v → step v c = some w → mount w → motive v (c :: cs))
    (goesOn : ∀ v c cs w, ¬ mount v → step v c = some w → ¬ mount w → motive w cs →
      motive v (c :: cs))
    (v : ν) (cs : List κ) (hv : ¬ mount v) :
  motive v cs
  := by
  induction cs generalizing v with
  | nil => exact ends v hv
  | cons c cs ih =>
      cases hs : step v c with
      | none => exact stuck v c cs hv hs
      | some w =>
          by_cases hw : mount w
          · exact enters v c cs w hv hs hw
          · exact goesOn v c cs w hv hs hw (ih w hw)

variable (enter)

/--
The resolution of a path is a walk to its end, to a node from which there is no way on, or to
a mount from where the resolution goes on.
-/
theorem resolve_eq {v : ν} (hv : ¬ mount v) (cs : List κ) :
  resolve step mount enter v cs =
    if mount (advance step v cs).1 then
      resolve step mount enter (enter (advance step v cs).1) (advance step v cs).2
    else if (advance step v cs).2 = [] then some (advance step v cs).1
    else none
  := by
  refine walk_induction step ?ends ?stuck ?enters ?goesOn v cs hv
  case ends =>
    intro v hv
    simp [advance, resolve, hv]
  case stuck =>
    intro v c cs hv hs
    simp [resolve, hs, advance_of_none hs, hv]
  case enters =>
    intro v c cs w _ hs hw
    simp [resolve, hs, advance_of_some hs, advance_mount hm hw, entered, hw]
  case goesOn =>
    intro v c cs w _ hs hw ih
    rw [resolve, hs, advance_of_some hs, ← ih]
    simp [entered, hw]

theorem blocked_eq (dir : ν → Bool) {v : ν} (hv : ¬ mount v) (cs : List κ) :
  blocked step mount enter dir v cs =
    (mount (advance step v cs).1 &&
      (!dir (enter (advance step v cs).1) && !(advance step v cs).2.isEmpty ||
        blocked step mount enter dir (enter (advance step v cs).1) (advance step v cs).2))
  := by
  refine walk_induction step ?ends ?stuck ?enters ?goesOn v cs hv
  case ends =>
    intro v hv
    simp [advance, blocked, hv]
  case stuck =>
    intro v c cs hv hs
    simp [blocked, hs, advance_of_none hs, hv]
  case enters =>
    intro v c cs w _ hs hw
    simp [blocked, hs, advance_of_some hs, advance_mount hm hw, entered, hw]
  case goesOn =>
    intro v c cs w _ hs hw ih
    rw [blocked, hs, advance_of_some hs, ← ih]
    simp [entered, hw]

theorem visits_false_eq {v : ν} (hv : ¬ mount v) (cs : List κ) :
  visits step mount enter false v cs =
    if mount (advance step v cs).1 then
      1 + visits step mount enter true (enter (advance step v cs).1) (advance step v cs).2
    else 0
  := by
  refine walk_induction step ?ends ?stuck ?enters ?goesOn v cs hv
  case ends =>
    intro v hv
    simp [advance, visits, hv]
  case stuck =>
    intro v c cs hv hs
    simp [visits, hs, advance_of_none hs, hv]
  case enters =>
    intro v c cs w _ hs hw
    simp [visits, hs, advance_of_some hs, advance_mount hm hw, hw]
  case goesOn =>
    intro v c cs w _ hs hw ih
    rw [visits, hs, advance_of_some hs, ← ih]
    simp [hw]

/-- A walk along a path with components, and what follows when it ends at a mount. -/
theorem visits_eq {v : ν} (hv : ¬ mount v) {cs : List κ} (hcs : cs ≠ []) :
  visits step mount enter true v cs =
    1 + if mount (advance step v cs).1 then
      1 + visits step mount enter true (enter (advance step v cs).1) (advance step v cs).2
    else 0
  := by
  have h : visits step mount enter true v cs = 1 + visits step mount enter false v cs := by
    cases cs with
    | nil => contradiction
    | cons c cs => simp [visits]
  rw [h, visits_false_eq enter hm hv]

end Paths
