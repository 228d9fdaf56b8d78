import Mathlib.Order.Defs.Unbundled
import Mathlib.Tactic.Common

/-!
# Programs that may stop

`Exec σ α` is the type of programs over a state `σ` that either return a value and a
state, or stop at a fault in the state reached so far.  The state at a fault is kept, so
that what a program did before it stopped can be stated.
-/

/-- The reasons for which a program stops without returning. -/
inductive Fault where
  /-- an assertion failed -/
  | assertion (msg : String)
  /-- a null pointer was followed -/
  | null (what : String)
  /-- a pointer was followed that does not point to an object -/
  | wild (what : String)
  /-- a loop did not end within its bound -/
  | endless
  /-- a number was divided by zero -/
  | zeroDivision
deriving DecidableEq, Repr

/-- The outcomes of a program: a value and a state, or a fault and the state at it. -/
inductive Outcome (σ α : Type) where
  | done (a : α) (s : σ)
  | stop (f : Fault) (s : σ)

namespace Outcome

variable {σ α : Type}

/-- The state at the end of a program, whether it returned or stopped. -/
def state : Outcome σ α → σ
  | done _ s => s
  | stop _ s => s

@[simp]
theorem state_done (a : α) (s : σ) :
  (done a s : Outcome σ α).state = s
  := rfl

@[simp]
theorem state_stop (f : Fault) (s : σ) :
  (stop f s : Outcome σ α).state = s
  := rfl

end Outcome

/-- Programs over the state `σ` with values in `α`. -/
def Exec (σ α : Type) : Type := σ → Outcome σ α

namespace Exec

variable {σ α β : Type}

/-- The program that runs `x` and then `f` on its value. -/
def andThen (x : Exec σ α) (f : α → Exec σ β) : Exec σ β := fun s =>
  match x s with
  | .done a s' => f a s'
  | .stop e s' => .stop e s'

instance : Monad (Exec σ) where
  pure a := fun s => .done a s
  bind := andThen

/-- The current state. -/
def get : Exec σ σ := fun s => .done s s

/-- Apply `f` to the current state. -/
def modify (f : σ → σ) : Exec σ Unit := fun s => .done () (f s)

/-- Stop at a fault. -/
def fault (e : Fault) : Exec σ α := fun s => .stop e s

/-- Stop with the message `msg` unless `p` holds. -/
def assert (p : Prop) [Decidable p] (msg : String) : Exec σ Unit := fun s =>
  if p then .done () s else .stop (.assertion msg) s

/-- Run `x` if `p` holds. -/
def when (p : Prop) [Decidable p] (x : Exec σ Unit) : Exec σ Unit :=
  if p then x else pure ()

/-! ### Running programs -/

@[simp]
theorem pure_apply (a : α) (s : σ) :
  (pure a : Exec σ α) s = .done a s
  := rfl

theorem bind_apply (x : Exec σ α) (f : α → Exec σ β) (s : σ) :
  (x >>= f) s = match x s with
    | .done a s' => f a s'
    | .stop e s' => .stop e s'
  := rfl

@[simp]
theorem get_apply (s : σ) :
  (get : Exec σ σ) s = .done s s
  := rfl

@[simp]
theorem modify_apply (f : σ → σ) (s : σ) :
  modify f s = .done () (f s)
  := rfl

theorem assert_apply (p : Prop) [Decidable p] (msg : String) (s : σ) :
  assert p msg s = if p then .done () s else .stop (.assertion msg) s
  := rfl

/-- An assertion that holds does nothing. -/
@[simp]
theorem assert_pos {p : Prop} [Decidable p] (h : p) (msg : String) (s : σ) :
  assert p msg s = .done () s
  := if_pos h

/-- An assertion that fails stops. -/
theorem assert_neg {p : Prop} [Decidable p] (h : ¬ p) (msg : String) (s : σ) :
  assert p msg s = .stop (.assertion msg) s
  := if_neg h

@[simp]
theorem when_pos {p : Prop} [Decidable p] (h : p) (x : Exec σ Unit) :
  when p x = x
  := if_pos h

@[simp]
theorem when_neg {p : Prop} [Decidable p] (h : ¬ p) (x : Exec σ Unit) :
  when p x = pure ()
  := if_neg h

/-- A program that starts with a part that returns goes on with its value. -/
theorem bind_done {x : Exec σ α} {f : α → Exec σ β} {s s' : σ} {a : α}
    (h : x s = .done a s') :
  (x >>= f) s = f a s'
  := by
  rw [bind_apply, h]

/-- A program that starts with a part that stops, stops there. -/
theorem bind_stop {x : Exec σ α} {f : α → Exec σ β} {s s' : σ} {e : Fault}
    (h : x s = .stop e s') :
  (x >>= f) s = .stop e s'
  := by
  rw [bind_apply, h]

/-- A sequence returns exactly when its parts do. -/
theorem bind_eq_done_iff {x : Exec σ α} {f : α → Exec σ β} {s s' : σ} {b : β} :
  (x >>= f) s = .done b s' ↔ ∃ a t, x s = .done a t ∧ f a t = .done b s'
  := by
  rw [bind_apply]
  cases h : x s with
  | done a t =>
      constructor
      · intro hf
        use a, t
      · rintro ⟨_, _, ⟨⟩, hf⟩
        apply hf
  | stop e t => simp

/-- An assertion returns exactly when it holds, and then the state is the same. -/
theorem assert_eq_done_iff {p : Prop} [Decidable p] {msg : String} {s s' : σ} {u : Unit} :
  assert p msg s = .done u s' ↔ p ∧ s' = s
  := by
  rw [assert_apply]
  split
  · simp [*, eq_comm]
  · simp [*]

/-! ### Programs that return -/

/-- From `s` the program `x` returns, with a value and a state that satisfy `Q`. -/
def Returns (s : σ) (x : Exec σ α) (Q : α → σ → Prop) : Prop :=
  ∃ a s', x s = .done a s' ∧ Q a s'

theorem Returns.mono {s : σ} {x : Exec σ α} {P Q : α → σ → Prop} (h : Returns s x P)
    (hPQ : ∀ a s', P a s' → Q a s') :
  Returns s x Q
  := by
  obtain ⟨a, s', hx, hP⟩ := h
  use a, s', hx
  apply hPQ a s' hP

theorem Returns.pure {s : σ} {a : α} {Q : α → σ → Prop} (h : Q a s) :
  Returns s (pure a) Q
  := ⟨a, s, rfl, h⟩

/-- A sequence returns when its second part does from what the first one establishes. -/
theorem Returns.bind {s : σ} {x : Exec σ α} {f : α → Exec σ β} {P : α → σ → Prop}
    {Q : β → σ → Prop} (h : Returns s x P) (hf : ∀ a s', P a s' → Returns s' (f a) Q) :
  Returns s (x >>= f) Q
  := by
  obtain ⟨a, s', hx, hP⟩ := h
  obtain ⟨b, t, hfa, hQ⟩ := hf a s' hP
  refine ⟨b, t, ?_, hQ⟩
  rw [bind_done hx, hfa]

/-- A sequence whose first part is known to return. -/
theorem Returns.step {s s' : σ} {x : Exec σ α} {f : α → Exec σ β} {a : α} {Q : β → σ → Prop}
    (hx : x s = .done a s') (h : Returns s' (f a) Q) :
  Returns s (x >>= f) Q
  := by
  obtain ⟨b, t, hf, hQ⟩ := h
  refine ⟨b, t, ?_, hQ⟩
  rw [bind_done hx, hf]

/-- A sequence whose first part is known to return, returns exactly when the rest does. -/
theorem Returns.step_iff {s s' : σ} {x : Exec σ α} {f : α → Exec σ β} {a : α}
    {Q : β → σ → Prop} (hx : x s = .done a s') :
  Returns s (x >>= f) Q ↔ Returns s' (f a) Q
  := by
  rw [Returns, Returns, bind_done hx]

/-- A sequence that ends with a function of its value. -/
theorem Returns.bind_pure_iff {s : σ} {x : Exec σ α} {g : α → β} {Q : β → σ → Prop} :
  Returns s (x >>= fun a => Pure.pure (g a)) Q ↔ Returns s x fun a s' => Q (g a) s'
  := by
  constructor
  · rintro ⟨b, s', hx, hQ⟩
    obtain ⟨a, t, hxa, hb⟩ := bind_eq_done_iff.mp hx
    cases hb
    exact ⟨a, s', hxa, hQ⟩
  · rintro ⟨a, s', hx, hQ⟩
    exact ⟨g a, s', bind_done hx, hQ⟩

theorem Returns.get_iff {s : σ} {f : σ → Exec σ β} {Q : β → σ → Prop} :
  Returns s (Exec.get >>= f) Q ↔ Returns s (f s) Q
  := Iff.rfl

theorem Returns.get {s : σ} {f : σ → Exec σ β} {Q : β → σ → Prop} (h : Returns s (f s) Q) :
  Returns s (get >>= f) Q
  := h

theorem Returns.modify {s : σ} {g : σ → σ} {f : Unit → Exec σ β} {Q : β → σ → Prop}
    (h : ∀ s', s' = g s → Returns s' (f ()) Q) :
  Returns s (modify g >>= f) Q
  := h (g s) rfl

/-- A program that starts with an assertion that holds. -/
theorem Returns.assert {p : Prop} [Decidable p] {msg : String} {s : σ} {f : Unit → Exec σ β}
    {Q : β → σ → Prop} (hp : p) (h : Returns s (f ()) Q) :
  Returns s (assert p msg >>= f) Q
  := by
  obtain ⟨b, t, hf, hQ⟩ := h
  refine ⟨b, t, ?_, hQ⟩
  rw [bind_done (assert_pos hp msg s), hf]

/-- A program that returns does so from the same state with the same outcome. -/
theorem Returns.done {s s' : σ} {x : Exec σ α} {a : α} {Q : α → σ → Prop} (h : Returns s x Q)
    (hx : x s = .done a s') :
  Q a s'
  := by
  obtain ⟨b, t, hxt, hQ⟩ := h
  rw [hx] at hxt
  cases hxt
  apply hQ

/-- A program that returns does not return with anything else. -/
theorem Returns.not_returns {s : σ} {x : Exec σ α} {P Q : α → σ → Prop} (h : Returns s x P)
    (hPQ : ∀ a s', P a s' → ¬ Q a s') :
  ¬ Returns s x Q
  := by
  rintro ⟨a, s', hx, hQ⟩
  exact hPQ a s' (h.done hx) hQ

/-! ### Programs that stop -/

/-- From `s` the program `x` stops at the fault `e`, in a state that satisfies `Q`. -/
def Stops (s : σ) (x : Exec σ α) (e : Fault) (Q : σ → Prop) : Prop :=
  ∃ s', x s = .stop e s' ∧ Q s'

/-- A sequence stops where its first part does. -/
theorem Stops.first {s : σ} {x : Exec σ α} {f : α → Exec σ β} {e : Fault} {Q : σ → Prop}
    (h : Stops s x e Q) :
  Stops s (x >>= f) e Q
  := by
  obtain ⟨s', hx, hQ⟩ := h
  refine ⟨s', bind_stop hx, hQ⟩

/-- A sequence stops where its second part does from what the first one establishes. -/
theorem Stops.bind {s : σ} {x : Exec σ α} {f : α → Exec σ β} {e : Fault} {P : α → σ → Prop}
    {Q : σ → Prop} (h : Returns s x P) (hf : ∀ a s', P a s' → Stops s' (f a) e Q) :
  Stops s (x >>= f) e Q
  := by
  obtain ⟨a, s', hx, hP⟩ := h
  obtain ⟨t, hfa, hQ⟩ := hf a s' hP
  refine ⟨t, ?_, hQ⟩
  rw [bind_done hx, hfa]

/-- A sequence whose first part is known to return. -/
theorem Stops.step {s s' : σ} {x : Exec σ α} {f : α → Exec σ β} {a : α} {e : Fault}
    {Q : σ → Prop} (hx : x s = .done a s') (h : Stops s' (f a) e Q) :
  Stops s (x >>= f) e Q
  := by
  obtain ⟨t, hf, hQ⟩ := h
  refine ⟨t, ?_, hQ⟩
  rw [bind_done hx, hf]

theorem Stops.assert {p : Prop} [Decidable p] {msg : String} {s : σ} {f : Unit → Exec σ β}
    {Q : σ → Prop} (hp : ¬ p) (h : Q s) :
  Stops s (assert p msg >>= f) (.assertion msg) Q
  := ⟨s, bind_stop (assert_neg hp msg s), h⟩

/-- A program that stops does not return. -/
theorem Stops.not_returns {s : σ} {x : Exec σ α} {e : Fault} {P : σ → Prop}
    {Q : α → σ → Prop} (h : Stops s x e P) :
  ¬ Returns s x Q
  := by
  rintro ⟨a, t, hx, -⟩
  obtain ⟨s', hs, -⟩ := h
  rw [hs] at hx
  cases hx

theorem Returns.not_fault {s : σ} {e : Fault} {Q : α → σ → Prop} :
  ¬ Returns s (Exec.fault e : Exec σ α) Q
  := by
  rintro ⟨a, s', h, -⟩
  cases h

/-! ### What programs leave when they return -/

/-- If the program `x` returns from `s`, it does so with a value and a state that satisfy `Q`. -/
structure Ensures (s : σ) (x : Exec σ α) (Q : α → σ → Prop) : Prop where
  holds : ∀ a s', x s = .done a s' → Q a s'

/-- What is ensured holds where the program returns. -/
theorem Returns.and_ensures {s : σ} {x : Exec σ α} {P Q : α → σ → Prop} (h : Returns s x P)
    (hQ : Ensures s x Q) :
  ∃ a s', P a s' ∧ Q a s'
  := by
  obtain ⟨a, s', hx, hP⟩ := h
  refine ⟨a, s', hP, hQ.holds a s' hx⟩

theorem Ensures.mono {s : σ} {x : Exec σ α} {P Q : α → σ → Prop} (h : Ensures s x P)
    (hPQ : ∀ a s', P a s' → Q a s') :
  Ensures s x Q
  := by
  constructor
  intro a s' hx
  apply hPQ a s' (h.holds a s' hx)

/-- A program that does what another one does from `s'` ensures what that one ensures. -/
theorem Ensures.congr {s s' : σ} {x y : Exec σ α} {Q : α → σ → Prop} (hxy : x s = y s')
    (h : Ensures s' y Q) :
  Ensures s x Q
  := by
  constructor
  intro a t hx
  rw [hxy] at hx
  apply h.holds a t hx

theorem Ensures.trivial (s : σ) (x : Exec σ α) :
  Ensures s x fun _ _ => True
  := by
  constructor
  intro a s' hx
  trivial

/-- A program that stops ensures anything. -/
theorem Ensures.fault {s : σ} {e : Fault} {Q : α → σ → Prop} :
  Ensures s (Exec.fault e : Exec σ α) Q
  := by
  constructor
  intro a s' hx
  cases hx

theorem Ensures.done {s s' : σ} {x : Exec σ α} {a : α} {Q : α → σ → Prop}
    (hx : x s = .done a s') (h : Q a s') :
  Ensures s x Q
  := by
  constructor
  intro b t ht
  rw [hx] at ht
  cases ht
  apply h

/-- A sequence whose first part is known to return. -/
theorem Ensures.step {s s' : σ} {x : Exec σ α} {f : α → Exec σ β} {a : α} {Q : β → σ → Prop}
    (hx : x s = .done a s') (h : Ensures s' (f a) Q) :
  Ensures s (x >>= f) Q
  := by
  constructor
  intro b t hxf
  rw [bind_done hx] at hxf
  apply h.holds b t hxf

/-- A sequence ensures what its second part does from what the first one ensures. -/
theorem Ensures.bind {s : σ} {x : Exec σ α} {f : α → Exec σ β} {P : α → σ → Prop}
    {Q : β → σ → Prop} (h : Ensures s x P) (hf : ∀ a s', P a s' → Ensures s' (f a) Q) :
  Ensures s (x >>= f) Q
  := by
  constructor
  intro b s' hxf
  obtain ⟨a, t, hx, hfa⟩ := bind_eq_done_iff.mp hxf
  apply (hf a t (h.holds a t hx)).holds b s' hfa

/-- A program that starts with an assertion goes on only if it holds. -/
theorem Ensures.assert {p : Prop} [Decidable p] {msg : String} {s : σ} {f : Unit → Exec σ β}
    {Q : β → σ → Prop} (h : p → Ensures s (f ()) Q) :
  Ensures s (assert p msg >>= f) Q
  := by
  constructor
  intro b t hxf
  obtain ⟨_, s', hx, hfa⟩ := bind_eq_done_iff.mp hxf
  obtain ⟨hp, rfl⟩ := assert_eq_done_iff.mp hx
  apply (h hp).holds b t hfa

/-! ### Programs that do not depend on a part of the state -/

/-- The program `x` does not depend on what `g` changes, and leaves it alone. -/
def Commutes (g : σ → σ) (x : Exec σ α) : Prop :=
  ∀ s, x (g s) = match x s with
    | .done a s' => .done a (g s')
    | .stop e s' => .stop e (g s')

theorem Commutes.pure (g : σ → σ) (a : α) :
  Commutes g (Pure.pure a : Exec σ α)
  := fun _ => rfl

theorem Commutes.assert (g : σ → σ) (p : Prop) [Decidable p] (msg : String) :
  Commutes g (Exec.assert p msg)
  := by
  intro s
  rw [assert_apply, assert_apply]
  split
  · rfl
  · rfl

theorem Commutes.modify {g f : σ → σ} (h : ∀ s, f (g s) = g (f s)) :
  Commutes g (Exec.modify f)
  := by
  intro s
  rw [modify_apply, modify_apply, h]

theorem Commutes.bind {g : σ → σ} {x : Exec σ α} {f : α → Exec σ β} (hx : Commutes g x)
    (hf : ∀ a, Commutes g (f a)) :
  Commutes g (x >>= f)
  := by
  intro s
  rw [bind_apply, bind_apply, hx s]
  cases x s with
  | done a t => apply hf a t
  | stop e t => rfl

/-- A program that reads from the state only what `g` does not change. -/
theorem Commutes.get {g : σ → σ} {f : σ → Exec σ β} (hf : ∀ s, f (g s) = f s)
    (hc : ∀ s, Commutes g (f s)) :
  Commutes g (Exec.get >>= f)
  := by
  intro s
  rw [bind_done (get_apply (g s)), bind_done (get_apply s), hf s]
  apply hc s s

theorem Commutes.when {g : σ → σ} {p : Prop} [Decidable p] {x : Exec σ Unit}
    (hx : Commutes g x) :
  Commutes g (Exec.when p x)
  := by
  rw [Exec.when]
  split
  · apply hx
  · apply Commutes.pure

/-! ### Programs that leave a part of the state as it is -/

/-- However `x` ends, the part `g` of the state is as it was. -/
def Preserves {γ : Type} (g : σ → γ) (x : Exec σ α) : Prop := ∀ s, g (x s).state = g s

/-- Where `x` returns, the part is as it was. -/
theorem Preserves.done {γ : Type} {g : σ → γ} {x : Exec σ α} {s s' : σ} {a : α}
    (h : Preserves g x) (hx : x s = .done a s') :
  g s' = g s
  := by
  have hs := h s
  rwa [hx] at hs

theorem Preserves.pure {γ : Type} (g : σ → γ) (a : α) :
  Preserves g (Pure.pure a : Exec σ α)
  := fun _ => rfl

theorem Preserves.get {γ : Type} (g : σ → γ) :
  Preserves g (Exec.get : Exec σ σ)
  := fun _ => rfl

theorem Preserves.fault {γ : Type} (g : σ → γ) (e : Fault) :
  Preserves g (Exec.fault e : Exec σ α)
  := fun _ => rfl

theorem Preserves.assert {γ : Type} (g : σ → γ) (p : Prop) [Decidable p] (msg : String) :
  Preserves g (Exec.assert p msg)
  := by
  intro s
  rw [assert_apply]
  split
  · rfl
  · rfl

theorem Preserves.modify {γ : Type} {g : σ → γ} {f : σ → σ} (h : ∀ s, g (f s) = g s) :
  Preserves g (Exec.modify f)
  := h

theorem Preserves.bind {γ : Type} {g : σ → γ} {x : Exec σ α} {f : α → Exec σ β}
    (hx : Preserves g x) (hf : ∀ a, Preserves g (f a)) :
  Preserves g (x >>= f)
  := by
  intro s
  have h := hx s
  rw [bind_apply]
  cases hxs : x s with
  | done a t =>
      rw [hxs] at h
      apply Eq.trans (hf a t) h
  | stop e t =>
      rw [hxs] at h
      apply h

theorem Preserves.when {γ : Type} {g : σ → γ} {p : Prop} [Decidable p] {x : Exec σ Unit}
    (hx : Preserves g x) :
  Preserves g (Exec.when p x)
  := by
  rw [Exec.when]
  split
  · apply hx
  · apply Preserves.pure

/-! ### Programs that follow a relation -/

/-- However `x` ends, the states before and after it are related by `r`. -/
def Follows (r : σ → σ → Prop) (x : Exec σ α) : Prop := ∀ s, r s (x s).state

section

variable {r : σ → σ → Prop}

/-- Where `x` returns, the states are related. -/
theorem Follows.done {x : Exec σ α} {s s' : σ} {a : α} (h : Follows r x) (hx : x s = .done a s') :
  r s s'
  := by
  have hs := h s
  rwa [hx] at hs

/-- What a sequence that returns does after a first part that follows the relation. -/
theorem Follows.first {x : Exec σ α} {f : α → Exec σ β} {s s' : σ} {b : β} (h : Follows r x)
    (hxf : (x >>= f) s = .done b s') :
  ∃ a t, r s t ∧ f a t = .done b s'
  := by
  obtain ⟨a, t, hx, hf⟩ := bind_eq_done_iff.mp hxf
  refine ⟨a, t, h.done hx, hf⟩

theorem Follows.modify {f : σ → σ} (h : ∀ s, r s (f s)) :
  Follows r (Exec.modify f)
  := h

variable [Std.Refl r]

theorem Follows.pure (a : α) :
  Follows r (Pure.pure a : Exec σ α)
  := fun s => refl_of r s

theorem Follows.get :
  Follows r (Exec.get : Exec σ σ)
  := fun s => refl_of r s

theorem Follows.fault (e : Fault) :
  Follows r (Exec.fault e : Exec σ α)
  := fun s => refl_of r s

theorem Follows.assert (p : Prop) [Decidable p] (msg : String) :
  Follows r (Exec.assert p msg)
  := by
  intro s
  rw [assert_apply]
  split
  · exact refl_of r s
  · exact refl_of r s

omit [Std.Refl r] in
theorem Follows.ite {p : Prop} [Decidable p] {x y : Exec σ α} (hx : Follows r x)
    (hy : Follows r y) :
  Follows r (if p then x else y)
  := by
  split
  · exact hx
  · exact hy

theorem Follows.when {p : Prop} [Decidable p] {x : Exec σ Unit} (hx : Follows r x) :
  Follows r (Exec.when p x)
  := by
  rw [Exec.when]
  split
  · exact hx
  · exact Follows.pure ()

omit [Std.Refl r] in
theorem Follows.bind [IsTrans σ r] {x : Exec σ α} {f : α → Exec σ β} (hx : Follows r x)
    (hf : ∀ a, Follows r (f a)) :
  Follows r (x >>= f)
  := by
  intro s
  have h := hx s
  rw [bind_apply]
  cases hxs : x s with
  | done a t =>
      rw [hxs] at h
      exact trans_of r h (hf a t)
  | stop e t =>
      rw [hxs] at h
      exact h

end

/-! ### Programs on a part of the state -/

/-- The program `x` on the part of the state that `g` gives and `f` replaces. -/
def onPart {τ : Type} (g : σ → τ) (f : τ → σ → σ) (x : Exec τ α) : Exec σ α := fun s =>
  match x (g s) with
  | .done a t => .done a (f t s)
  | .stop e t => .stop e (f t s)

theorem Returns.onPart {τ : Type} {g : σ → τ} {f : τ → σ → σ} {x : Exec τ α} {s : σ}
    {Q : α → τ → Prop} (h : Returns (g s) x Q) :
  Returns s (onPart g f x) fun a s' => ∃ t, Q a t ∧ s' = f t s
  := by
  obtain ⟨a, t, hx, hQ⟩ := h
  refine ⟨a, f t s, ?_, t, hQ, rfl⟩
  rw [Exec.onPart, hx]

theorem Stops.onPart {τ : Type} {g : σ → τ} {f : τ → σ → σ} {x : Exec τ α} {s : σ} {e : Fault}
    {Q : τ → Prop} (h : Stops (g s) x e Q) :
  Stops s (onPart g f x) e fun s' => ∃ t, Q t ∧ s' = f t s
  := by
  obtain ⟨t, hx, hQ⟩ := h
  refine ⟨f t s, ?_, t, hQ, rfl⟩
  rw [Exec.onPart, hx]

end Exec
