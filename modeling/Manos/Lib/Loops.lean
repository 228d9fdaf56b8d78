import Manos.Lib.Exec

/-!
# Programs with a bound on their turns

A program with loops is given a bound on the number of their turns.  It settles if it returns the
same for every bound that is large enough.
-/

namespace Exec

variable {σ α β : Type}

/-- From `s` the program `x` settles, with a value and a state that satisfy `Q`. -/
def Settles (s : σ) (x : ℕ → Exec σ α) (Q : α → σ → Prop) : Prop :=
  ∃ a s', (∃ N, ∀ n, N ≤ n → x n s = .done a s') ∧ Q a s'

variable {s : σ} {x y : ℕ → Exec σ α} {P Q : α → σ → Prop}

theorem Settles.mono (h : Settles s x P) (hPQ : ∀ a s', P a s' → Q a s') :
  Settles s x Q
  := by
  obtain ⟨a, s', hx, hP⟩ := h
  exact ⟨a, s', hx, hPQ a s' hP⟩

/-- Programs that do the same from `s` for every bound. -/
theorem Settles.congr (h : Settles s x Q) (hxy : ∀ n, y n s = x n s) :
  Settles s y Q
  := by
  obtain ⟨a, s', ⟨N, hx⟩, hQ⟩ := h
  exact ⟨a, s', ⟨N, fun n hn => (hxy n).trans (hx n hn)⟩, hQ⟩

/-- A program without a bound. -/
theorem Returns.settles {z : Exec σ α} (h : Returns s z Q) :
  Settles s (fun _ => z) Q
  := by
  obtain ⟨a, s', hz, hQ⟩ := h
  exact ⟨a, s', ⟨0, fun _ _ => hz⟩, hQ⟩

/-- A program that settles returns for every bound that is large enough. -/
theorem Settles.returns (h : Settles s x Q) :
  ∃ N, ∀ n, N ≤ n → Returns s (x n) Q
  := by
  obtain ⟨a, s', ⟨N, hx⟩, hQ⟩ := h
  exact ⟨N, fun n hn => ⟨a, s', hx n hn, hQ⟩⟩

/-- A sequence settles when its second part does from what the first one establishes. -/
theorem Settles.bind {f : ℕ → α → Exec σ β} {R : β → σ → Prop} (h : Settles s x P)
    (hf : ∀ a s', P a s' → Settles s' (fun n => f n a) R) :
  Settles s (fun n => x n >>= f n) R
  := by
  obtain ⟨a, s', ⟨N, hx⟩, hP⟩ := h
  obtain ⟨b, t, ⟨M, hfa⟩, hR⟩ := hf a s' hP
  refine ⟨b, t, ⟨max N M, fun n hn => ?_⟩, hR⟩
  change (x n >>= f n) s = .done b t
  change ∀ n, M ≤ n → f n a s' = .done b t at hfa
  rw [bind_done (hx n (Nat.le_trans (Nat.le_max_left _ _) hn)),
    hfa n (Nat.le_trans (Nat.le_max_right _ _) hn)]

/-- A sequence whose first part is known to return. -/
theorem Settles.step {z : Exec σ α} {f : ℕ → α → Exec σ β} {a : α} {s' : σ} {R : β → σ → Prop}
    (hz : z s = .done a s') (h : Settles s' (fun n => f n a) R) :
  Settles s (fun n => z >>= f n) R
  := by
  have hfirst : Returns s z fun b t => b = a ∧ t = s' := ⟨a, s', hz, rfl, rfl⟩
  apply hfirst.settles.bind
  rintro b t ⟨rfl, rfl⟩
  exact h

/-- A turn is taken off the bound. -/
theorem Settles.succ (h : Settles s (fun n => x (n + 1)) Q) :
  Settles s x Q
  := by
  obtain ⟨a, s', ⟨N, hx⟩, hQ⟩ := h
  refine ⟨a, s', ⟨N + 1, fun n hn => ?_⟩, hQ⟩
  have hpred : x (n - 1 + 1) s = .done a s' := hx (n - 1) (Nat.le_sub_of_add_le hn)
  rwa [Nat.sub_add_cancel (Nat.le_trans (Nat.le_add_left 1 N) hn)] at hpred

/-- A program on a part of the state. -/
theorem Settles.onPart {τ : Type} {g : σ → τ} {f : τ → σ → σ} {z : ℕ → Exec τ α}
    {R : α → τ → Prop} (h : Settles (g s) z R) :
  Settles s (fun n => onPart g f (z n)) fun a s' => ∃ t, R a t ∧ s' = f t s
  := by
  obtain ⟨a, t, ⟨N, hz⟩, hR⟩ := h
  refine ⟨a, f t s, ⟨N, fun n hn => ?_⟩, t, hR, rfl⟩
  change Exec.onPart g f (z n) s = _
  rw [Exec.onPart, hz n hn]

end Exec
