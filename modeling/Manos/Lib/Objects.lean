import Manos.Lib.Exec

/-!
# Objects and their calls

An object is given by what its calls do to its state and what they return; a specification by
the same for an abstract state, without faults.  If each call refines the specification, then
so does every sequence of calls.
-/

/-- The value that a program returned, if it did. -/
def Outcome.value? {σ α : Type} : Outcome σ α → Option α
  | done a _ => some a
  | stop _ _ => none

namespace Exec

variable {σ τ ι ρ : Type} {call : ι → Exec σ ρ} {R : σ → τ → Prop} {s : σ} {t : τ}

/-- The calls `l` one after another, with what they return. -/
def calls (call : ι → Exec σ ρ) : List ι → Exec σ (List ρ)
  | [] => pure []
  | i :: l => do
      let r ← call i
      let rs ← calls call l
      return r :: rs

/-- One more call is made in the state that the others lead to. -/
theorem calls_concat {l : List ι} {i : ι} {rs : List ρ} {r : ρ} {s' s'' : σ}
    (hl : calls call l s = .done rs s') (hi : call i s' = .done r s'') :
  calls call (l ++ [i]) s = .done (rs ++ [r]) s''
  := by
  induction l generalizing s rs with
  | nil =>
      cases hl
      exact bind_done hi
  | cons j l ih =>
      obtain ⟨r₁, s₁, hj, hl⟩ := bind_eq_done_iff.mp hl
      obtain ⟨rs₁, s₂, hl, hrs⟩ := bind_eq_done_iff.mp hl
      cases hrs
      exact (bind_done hj).trans (bind_done (ih hl))

/-- What the calls of an object return, and the states they lead to. -/
structure Spec (ι τ ρ : Type) where
  result : ι → τ → ρ
  next : ι → τ → τ

namespace Spec

variable (spec : Spec ι τ ρ)

/-- What the calls `l` return. -/
def results : List ι → τ → List ρ
  | [], _ => []
  | i :: l, t => spec.result i t :: results l (spec.next i t)

/-- The state after the calls `l`. -/
def after (l : List ι) (t : τ) : τ := l.foldl (fun t i => spec.next i t) t

theorem after_concat (l : List ι) (i : ι) (t : τ) :
  spec.after (l ++ [i]) t = spec.next i (spec.after l t)
  := List.foldl_append

/-- One more call returns what it does in the state after the others. -/
theorem results_concat (l : List ι) (i : ι) (t : τ) :
  spec.results (l ++ [i]) t = spec.results l t ++ [spec.result i (spec.after l t)]
  := by
  induction l generalizing t with
  | nil => rfl
  | cons j l ih =>
      rw [List.cons_append, results, results, ih, List.cons_append]
      rfl

/-- Each of the calls `l` satisfies `ok` in the state before it. -/
def Allows (ok : ι → τ → Prop) : List ι → τ → Prop
  | [], _ => True
  | i :: l, t => ok i t ∧ Allows ok l (spec.next i t)

instance decidableAllows (ok : ι → τ → Prop) [∀ i t, Decidable (ok i t)] :
    ∀ l t, Decidable (spec.Allows ok l t)
  | [], _ => .isTrue trivial
  | i :: l, t => @instDecidableAnd _ _ _ (decidableAllows ok l (spec.next i t))

end Spec

variable {spec : Spec ι τ ρ}

/-- Every call returns what the specification says, and keeps the relation `R` between the
states. -/
def Refines (R : σ → τ → Prop) (call : ι → Exec σ ρ) (spec : Spec ι τ ρ) : Prop :=
  ∀ i s t, R s t → Returns s (call i) fun r s' => r = spec.result i t ∧ R s' (spec.next i t)

/-- The calls that satisfy `ok` return what the specification says, and keep the relation `R`
between the states. -/
def RefinesIf (ok : ι → τ → Prop) (R : σ → τ → Prop) (call : ι → Exec σ ρ) (spec : Spec ι τ ρ) :
    Prop :=
  ∀ i s t, R s t → ok i t →
    Returns s (call i) fun r s' => r = spec.result i t ∧ R s' (spec.next i t)

/-- If the calls that satisfy `ok` refine the specification, then they do one after another. -/
theorem RefinesIf.calls {ok : ι → τ → Prop} (h : RefinesIf ok R call spec) (hR : R s t)
    {l : List ι} (hl : spec.Allows ok l t) :
  Returns s (Exec.calls call l) fun rs s' => rs = spec.results l t ∧ R s' (spec.after l t)
  := by
  induction l generalizing s t with
  | nil => exact Returns.pure ⟨rfl, hR⟩
  | cons i l ih =>
      apply Returns.bind (h i s t hR hl.1)
      rintro r s' ⟨hr, hR'⟩
      apply Returns.bind (ih hR' hl.2)
      rintro rs s'' ⟨hrs, hR''⟩
      apply Returns.pure
      refine ⟨?_, hR''⟩
      rw [hr, hrs, Spec.results]

theorem Spec.allows_of_forall {ok : ι → τ → Prop} (h : ∀ i t, ok i t) (l : List ι) (t : τ) :
  spec.Allows ok l t
  := by
  induction l generalizing t with
  | nil => trivial
  | cons i l ih => exact ⟨h i t, ih _⟩

/-- If each call refines the specification, then the calls one after another do. -/
theorem Refines.calls (h : Refines R call spec) (hR : R s t) (l : List ι) :
  Returns s (Exec.calls call l) fun rs s' => rs = spec.results l t ∧ R s' (spec.after l t)
  := by
  have hif : RefinesIf (fun _ _ => True) R call spec := fun i s t hR _ => h i s t hR
  exact hif.calls hR (Spec.allows_of_forall (fun _ _ => trivial) l t)

/-- If only the calls that satisfy `ok` return what the specification says, then calls that do
so one after another satisfy it. -/
theorem RefinesIf.allows {ok : ι → τ → Prop} (h : RefinesIf ok R call spec)
    (hok : ∀ i s t, R s t → Returns s (call i) (fun r _ => r = spec.result i t) → ok i t)
    (hR : R s t) {l : List ι}
    (hl : Returns s (Exec.calls call l) fun rs _ => rs = spec.results l t) :
  spec.Allows ok l t
  := by
  induction l generalizing s t with
  | nil => trivial
  | cons i l ih =>
      obtain ⟨rs, s'', hrun, rfl⟩ := hl
      obtain ⟨r, s', hcall, hrest⟩ := bind_eq_done_iff.mp hrun
      obtain ⟨rs, s₁, hcalls, heq⟩ := bind_eq_done_iff.mp hrest
      cases heq
      have hi : ok i t := hok i s t hR ⟨_, _, hcall, rfl⟩
      refine ⟨hi, ih ((h i s t hR hi).done hcall).2 ?_⟩
      exact ⟨_, _, hcalls, rfl⟩

/-- A program whose value is computed returns it. -/
theorem Returns.of_value? {α : Type} {x : Exec σ α} {a : α} (h : (x s).value? = some a) :
  Returns s x fun b _ => b = a
  := by
  cases hx : x s with
  | done b s' =>
      rw [hx] at h
      cases h
      exact ⟨a, s', hx, rfl⟩
  | stop e s' =>
      rw [hx] at h
      cases h

end Exec
