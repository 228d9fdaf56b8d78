import Mathlib.Logic.Relation

/-!
# Runs of a transition system

A transition system is given by the events that may happen in a state and the states they
lead to.  A run is a sequence of such steps; a run may be restricted to the steps that meet
a condition on the state before the step and the event.
-/

namespace Run

variable {σ ε : Type} {step : σ → ε → σ → Prop} {C : σ → ε → Prop} {s s' : σ}

variable (step C) in
/-- A step whose event meets the condition `C`. -/
def StepWhen (s s' : σ) : Prop := ∃ e, C s e ∧ step s e s'

variable (step C) in
/-- The state `s'` is reached from `s` by steps that meet the condition `C`. -/
def Reach : σ → σ → Prop := Relation.ReflTransGen (StepWhen step C)

variable (step) in
/-- The state `s'` is reached from `s`. -/
def ReachAny : σ → σ → Prop := Reach step fun _ _ => True

variable (step) in
/-- The states `S 0` to `S n` are those of a run. -/
def Path (S : Nat → σ) (n : Nat) : Prop := ∀ i < n, ∃ e, step (S i) e (S (i + 1))

theorem Reach.refl (s : σ) :
  Reach step C s s
  := Relation.ReflTransGen.refl

/-- A run with one more step. -/
theorem Reach.snoc {s'' : σ} {e : ε} (h : Reach step C s s') (hC : C s' e)
    (hs : step s' e s'') :
  Reach step C s s''
  := Relation.ReflTransGen.tail h ⟨e, hC, hs⟩

theorem ReachAny.snoc {s'' : σ} {e : ε} (h : ReachAny step s s') (hs : step s' e s'') :
  ReachAny step s s''
  := Reach.snoc h trivial hs

/-- What holds at the start and is kept by every step holds in every state of a run. -/
theorem Reach.invariant {P : σ → Prop} (h : Reach step C s s') (h₀ : P s)
    (hstep : ∀ t e t', P t → C t e → step t e t' → P t') :
  P s'
  := by
  induction h with
  | refl => apply h₀
  | tail _ hlast ih =>
      obtain ⟨e, hC, hs⟩ := hlast
      apply hstep _ e _ ih hC hs

/-- What holds at the start and is kept by every step holds along a run. -/
theorem Path.invariant {P : σ → Prop} {S : Nat → σ} {n : Nat} (h : Path step S n) (h₀ : P (S 0))
    (hstep : ∀ t e t', P t → step t e t' → P t') {i : Nat} (hi : i ≤ n) :
  P (S i)
  := by
  induction i with
  | zero => apply h₀
  | succ i ih =>
      obtain ⟨e, hs⟩ := h i (by omega)
      apply hstep _ e _ (ih (by omega)) hs

/-- A run that meets a condition meets a weaker one. -/
theorem Reach.mono {D : σ → ε → Prop} (h : Reach step C s s') (hCD : ∀ t e, C t e → D t e) :
  Reach step D s s'
  := by
  refine Relation.ReflTransGen.mono ?_ _ _ h
  rintro t t' ⟨e, hC, hs⟩
  refine ⟨e, hCD t e hC, hs⟩

/-! ### Computed runs -/

/-- The state after a list of events, when `next` computes the steps and `good` holds at each. -/
def after (next : σ → ε → Option σ) (good : σ → ε → Bool) (s : σ) : List ε → Option σ
  | [] => some s
  | e :: l => if good s e then (next s e).bind fun t => after next good t l else none

/-- What is computed is reached by steps that meet the condition. -/
theorem after_reaches {next : σ → ε → Option σ} {good : σ → ε → Bool} {l : List ε}
    (hnext : ∀ t e t', next t e = some t' → step t e t') (hC : ∀ t e, good t e = true → C t e)
    (h : after next good s l = some s') :
  Reach step C s s'
  := by
  induction l generalizing s with
  | nil =>
      cases h
      exact Reach.refl _
  | cons e l ih =>
      unfold after at h
      split at h
      · rename_i hgood
        obtain ⟨t, ht, h⟩ := Option.bind_eq_some_iff.mp h
        exact Relation.ReflTransGen.head ⟨e, hC s e hgood, hnext s e t ht⟩ (ih h)
      · cases h

/-! ### Traces -/

variable (step) in
/-- The state is reached from another one by these events. -/
inductive Trace (s : σ) : List ε → σ → Prop where
  | nil : Trace s [] s
  | snoc {es : List ε} {t t' : σ} {e : ε} (h : Trace s es t) (hs : step t e t') :
      Trace s (es ++ [e]) t'

theorem Trace.last {e : ε} (es : List ε) (h : Trace step s (es ++ [e]) s') :
  ∃ t, Trace step s es t ∧ step t e s'
  := by
  generalize hl : es ++ [e] = l at h
  cases h with
  | nil => simp at hl
  | snoc h hs =>
      obtain ⟨rfl, he⟩ := List.append_inj' hl rfl
      cases he
      exact ⟨_, h, hs⟩

/-- When every step has a step of another system with the same event, so do runs. -/
theorem Trace.simulate {τ : Type} {abs : τ → ε → τ → Prop} {R : σ → τ → Prop} {es : List ε}
    {a : τ} (h : Trace step s es s') (h₀ : R s a)
    (hstep : ∀ t e t' b, R t b → step t e t' → ∃ b', abs b e b' ∧ R t' b') :
  ∃ a', Trace abs a es a' ∧ R s' a'
  := by
  induction h with
  | nil => exact ⟨a, .nil, h₀⟩
  | snoc _ hs ih =>
      obtain ⟨b, hb, hR⟩ := ih
      obtain ⟨b', hb', hR'⟩ := hstep _ _ _ _ hR hs
      exact ⟨b', hb.snoc hb', hR'⟩

end Run
