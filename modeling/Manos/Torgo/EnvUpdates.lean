import Manos.Torgo.EnvLaws

/-!
# Changing and removing bindings

`updateVarEnv` finds a binding only if it is the first one, and does not come to an end otherwise.
`unsetVarEnv` takes every binding off the environment, and it frees those of them that match
behind the first one.
-/

namespace Torgo

open Exec

namespace Env

variable {s s' : Env} {a x : ℕ} {l : List ℕ} {name value : DString}

/-! ### What is to be done -/

/-- The bindings with the value of the first one that matches replaced. -/
def replaceFirst (name value : DString) : List (DString × DString) → List (DString × DString)
  | [] => []
  | b :: env =>
      if Matches b.1 name then (b.1, value) :: env else b :: replaceFirst name value env

/-- The bindings with the first one that matches changed, or a new one in front of them if none
matches. -/
def updated (name value : DString) (env : List (DString × DString)) : List (DString × DString) :=
  if ∃ b ∈ env, Matches b.1 name then replaceFirst name value env else (name, value) :: env

/-- The value of the first binding that matches is replaced, or a binding is added in front. -/
def UpdatesFirst (s : Env) (l : List ℕ) (name value : DString) : Prop :=
  ∃ k₀, ∀ k ≥ k₀, Returns s (updateVarEnv k name value) fun _ s' =>
    ∃ l', s'.Holds l' ∧ l'.map s'.binding = updated name value (l.map s.binding)

/-- The bindings that match are removed, and each of their blocks is freed once. -/
def UnsetsAll (s : Env) (l : List ℕ) (name : DString) : Prop :=
  ∃ k₀, ∀ k ≥ k₀, Returns s (unsetVarEnv k name) fun _ s' =>
    (∃ l', s'.Holds l' ∧
        l'.map s'.binding = (l.map s.binding).filter fun b => ¬ Matches b.1 name)
      ∧ ∀ a ∈ l, Matches (s.binding a).1 name → ∀ x ∈ s.blocks a, s'.freed.count x = 1

/-! ### Freeing a binding -/

/-- The blocks of a binding are freed. -/
theorem freeEnvVar_apply (hnodup : (s.blocks a).Nodup) (hlive : ∀ x ∈ s.blocks a, x ∉ s.freed) :
  freeEnvVar a s
    = .done () { s with freed := s.freed ++ [(s.var a).name, (s.var a).value, a] }
  := by
  have ha := hlive a (mem_blocks.mpr (.inl rfl))
  have hname := hlive _ (mem_blocks.mpr (.inr (.inl rfl)))
  have hvalue := hlive _ (mem_blocks.mpr (.inr (.inr rfl)))
  simp only [blocks, List.nodup_cons, List.mem_cons, List.not_mem_nil, or_false, not_or] at hnodup
  rw [freeEnvVar, bind_done (deref_live ha), bind_done (kfree_live hname)]
  apply (bind_done (kfree_live ?_)).trans
  · rw [kfree_live]
    · simp
    · simp only [List.mem_append, List.mem_singleton, not_or]
      exact ⟨⟨ha, hnodup.1.1⟩, hnodup.1.2⟩
  · simp only [List.mem_append, List.mem_singleton, not_or]
    exact ⟨hvalue, Ne.symm hnodup.2.1⟩

/-! ### Unsetting -/

/-- The environment with another link of the binding in the block `a`, and more blocks freed. -/
def relinked (s : Env) (a : ℕ) (next : Option ℕ) (freed : List ℕ) : Env where
  vars := s.vars
  var := Function.update s.var a { s.var a with next := next }
  str := s.str
  freed := s.freed ++ freed
  brk := s.brk

theorem relinked_blocks (s : Env) (a b : ℕ) (next : Option ℕ) (freed : List ℕ) :
  (s.relinked a next freed).blocks b = s.blocks b
  := by
  by_cases h : b = a
  · subst h
    simp [blocks, relinked]
  · simp [blocks, relinked, Function.update_of_ne h]

theorem relinked_next_self (s : Env) (a : ℕ) (next : Option ℕ) (freed : List ℕ) :
  ((s.relinked a next freed).var a).next = next
  := by
  simp [relinked]

/-- A binding is taken off the list behind `a`, and some of its blocks are freed. -/
theorem Live.relinked {b : ℕ} {next : Option ℕ} {freed : List ℕ} (hlive : s.Live (a :: b :: l))
    (hfreed : ∀ x ∈ freed, x ∈ s.blocks b) :
  (s.relinked a next freed).Live (a :: l)
  := by
  obtain ⟨hnodup, hnotMem, hapart, hlive'⟩ := live_cons.mp hlive
  obtain ⟨-, -, hapart', hrest⟩ := live_cons.mp hlive'
  have hlive'' : s.Live (a :: l) := by
    refine live_cons.mpr ⟨hnodup, hnotMem, ?_, hrest⟩
    intro x hx hx'
    apply hapart x hx
    rw [List.flatMap_cons]
    exact List.mem_append_right _ hx'
  apply hlive''.frame
  · intro c _
    apply relinked_blocks
  · intro x hx hx'
    rcases List.mem_append.mp hx' with hx' | hx'
    · exact hx'
    · have hb := hfreed x hx'
      rw [List.flatMap_cons] at hx
      rcases List.mem_append.mp hx with hx | hx
      · exact (hapart x hx (List.mem_flatMap.mpr ⟨b, List.mem_cons_self, hb⟩)).elim
      · exact (hapart' x hb hx).elim

/-- The bindings behind the one that is taken off. -/
theorem relinked_threads {b : ℕ} {freed : List ℕ} (hlive : s.Live (a :: b :: l))
    (hrest : Threads (fun c => (s.var c).next) (s.var b).next l) :
  Threads (fun c => ((s.relinked a (s.var b).next freed).var c).next)
    ((s.relinked a (s.var b).next freed).var a).next l
  := by
  rw [relinked_next_self]
  apply hrest.frame
  intro c hc
  have hne : c ≠ a := by
    rintro rfl
    apply (live_cons.mp hlive).2.2.1 c (mem_blocks.mpr (.inl rfl))
    exact List.mem_flatMap.mpr ⟨c, List.mem_cons_of_mem _ hc, mem_blocks.mpr (.inl rfl)⟩
  simp [relinked, Function.update_of_ne hne]

/-- The loop takes the bindings behind the first one off the list. -/
theorem unsetLoop_returns {k : ℕ} (hthreads : Threads (fun b => (s.var b).next) (s.var a).next l)
    (hlive : s.Live (a :: l)) (hk : l.length < k) :
  Returns s (unsetLoop name (some a) k) fun _ s' =>
    s'.vars = s.vars ∧ (s'.var a).next = none ∧ a ∉ s'.freed
  := by
  induction l generalizing s k with
  | nil =>
      obtain ⟨k, rfl⟩ : ∃ m, k = m + 1 := Nat.exists_eq_add_of_le' (Nat.one_le_of_lt hk)
      have hnext : (s.var a).next = none := hthreads
      have ha := hlive.var_live List.mem_cons_self
      refine ⟨(), s, ?_, rfl, hnext, ha⟩
      rw [unsetLoop, bind_done (deref_live ha), hnext]
      rfl
  | cons b l ih =>
      obtain ⟨k, rfl⟩ : ∃ m, k = m + 1 := Nat.exists_eq_add_of_le' (Nat.one_le_of_lt hk)
      obtain ⟨hnext, hrest⟩ := hthreads
      obtain ⟨-, -, -, hlive'⟩ := live_cons.mp hlive
      obtain ⟨hnodup, hnotMem, -, -⟩ := live_cons.mp hlive'
      have ha := hlive.var_live List.mem_cons_self
      have hb := hlive'.var_live List.mem_cons_self
      have hne : b ≠ a := by
        rintro rfl
        apply (live_cons.mp hlive).2.2.1 b (mem_blocks.mpr (.inl rfl))
        exact List.mem_flatMap.mpr ⟨b, List.mem_cons_self, mem_blocks.mpr (.inl rfl)⟩
      rw [unsetLoop]
      apply Returns.step (deref_live ha)
      rw [hnext]
      apply Returns.step (deref_live hb)
      apply Returns.step (matchName_live (hlive'.name_live List.mem_cons_self))
      have hassign : assign a { s.var a with next := (s.var b).next } s
          = .done () (s.relinked a (s.var b).next []) := by
        rw [assign_live ha, setVar, relinked, List.append_nil]
      by_cases hmatch : Matches (s.str (s.var b).name) name
      · have hblocks := relinked_blocks s a b (s.var b).next []
        have hfree : freeEnvVar b (s.relinked a (s.var b).next []) = .done ()
            (s.relinked a (s.var b).next [(s.var b).name, (s.var b).value, b]) := by
          rw [freeEnvVar_apply (by rwa [hblocks])]
          · simp [relinked, Function.update_of_ne hne]
          · rw [hblocks, relinked, List.append_nil]
            exact hnotMem
        rw [if_pos (decide_eq_true hmatch)]
        apply Returns.step hassign
        apply Returns.step hfree
        apply ih (relinked_threads hlive hrest) (hlive.relinked _) (Nat.lt_of_succ_lt_succ hk)
        intro x hx
        simp only [List.mem_cons, List.not_mem_nil, or_false] at hx
        rw [mem_blocks]
        rcases hx with rfl | rfl | rfl
        · exact .inr (.inl rfl)
        · exact .inr (.inr rfl)
        · exact .inl rfl
      · have hnot : ¬ decide (Matches (s.str (s.var b).name) name) = true := by
          rwa [decide_eq_true_iff]
        rw [if_neg hnot]
        apply Returns.step hassign
        exact ih (relinked_threads hlive hrest) (hlive.relinked (List.forall_mem_nil _))
          (Nat.lt_of_succ_lt_succ hk)

/-- No environment is rid of the bindings that match: one without bindings has no first one to
start from, and one with bindings has none afterwards, whose first one was not freed. -/
theorem not_unsetsAll (h : s.Holds l) (name : DString) :
  ¬ s.UnsetsAll l name
  := by
  rintro ⟨k₀, hunset⟩
  cases l with
  | nil =>
      obtain ⟨_, s', hrun, -⟩ := hunset (k₀ + 1) (Nat.le_succ k₀)
      have hvars : s.vars = none := h.threads
      rw [unsetVarEnv, bind_done (get_apply s), hvars] at hrun
      cases hrun
  | cons a l =>
      obtain ⟨hvars, hrest⟩ := h.threads
      have hreturns : Returns s (unsetLoop name (some a) (k₀ + l.length + 1)) _ :=
        unsetLoop_returns hrest h.live (by omega)
      obtain ⟨_, s₁, hloop, hvars₁, hnext, ha⟩ := hreturns
      have hrun : unsetVarEnv (k₀ + l.length + 1) name s = .done () { s₁ with vars := none } := by
        rw [unsetVarEnv, bind_done (get_apply s), bind_done (modify_apply _ _), hvars,
          bind_done hloop, bind_done (deref_live ha), hnext]
        rfl
      obtain ⟨⟨l', hl', hbindings⟩, hfreed⟩ := (hunset _ (by omega)).done hrun
      have hnil : l' = [] := by
        cases l' with
        | nil => rfl
        | cons b l' => cases hl'.threads.1
      rw [hnil, List.map_nil, eq_comm, List.filter_eq_nil_iff] at hbindings
      have hmatch : Matches (s.binding a).1 name := by
        have := hbindings _ (List.mem_map_of_mem List.mem_cons_self)
        simpa using this
      have hcount := hfreed a List.mem_cons_self hmatch a (mem_blocks.mpr (.inl rfl))
      rw [List.count_eq_zero_of_not_mem ha] at hcount
      contradiction

/-! ### Updating -/

/-- The loop stays at a binding that does not match. -/
theorem updateLoop_endless {stub k : ℕ} (ha : a ∉ s.freed) (hname : (s.var a).name ∉ s.freed)
    (hmatch : ¬ Matches (s.str (s.var a).name) name) :
  updateLoop name value stub k (some a) s = .stop .endless s
  := by
  induction k with
  | zero => rfl
  | succ k ih =>
      have hnot : ¬ decide (Matches (s.str (s.var a).name) name) = true := by
        rwa [decide_eq_true_iff]
      rw [updateLoop, bind_done (deref_live ha), bind_done (matchName_live hname), if_neg hnot, ih]

/-- Without bindings a new one is added. -/
theorem updateVarEnv_nil (h : s.Holds []) (name value : DString) (k : ℕ) :
  updateVarEnv (k + 1) name value s = .done value (s.withBinding name value)
  := by
  have hnew : s.brk ∉ (s.withVar name value).freed := h.brk_notMem 0
  have hvars : (s.withVar name value).vars = none := h.threads
  have hstr : string (s.brk + 2) (s.withBinding name value)
      = .done value (s.withBinding name value) := by
    have hlive : s.brk + 2 ∉ (s.withBinding name value).freed := h.brk_notMem 2
    have hvalue : (s.withBinding name value).str (s.brk + 2) = value := Function.update_self ..
    apply (congrFun (if_neg hlive) _).trans
    rw [hvalue, pure_apply]
  rw [updateVarEnv, bind_done (mkEnvVar_apply s name value), bind_done (get_apply _), hvars,
    updateLoop, bind_done (deref_live hnew), bind_done (get_apply _),
    bind_done (assign_live hnew _), bind_done (modify_apply _ _)]
  simp only [setVar, withVar, Function.update_self, Function.update_idem]
  exact hstr

/-- The environment with the value of the first binding changed, and the copy of the name, the old
value and the stub freed. -/
def withValue (s : Env) (a : ℕ) (name value : DString) : Env where
  vars := s.vars
  var := Function.update
    (Function.update (s.withVar name value).var a { s.var a with value := s.brk + 2 })
    s.brk ⟨s.brk + 1, (s.var a).value, none⟩
  str := (s.withVar name value).str
  freed := s.freed ++ [s.brk + 1, (s.var a).value, s.brk]
  brk := s.brk + 3

theorem withVar_var_of_lt (ha : a < s.brk) :
  (s.withVar name value).var a = s.var a
  := Function.update_of_ne (Nat.ne_of_lt ha) _ _

/-- The value of a first binding that matches is replaced. -/
theorem updateVarEnv_first (h : s.Holds (a :: l)) (hmatch : Matches (s.binding a).1 name)
    (value : DString) (k : ℕ) :
  updateVarEnv (k + 1) name value s = .done value (s.withValue a name value)
  := by
  obtain ⟨hvars, -⟩ := h.threads
  obtain ⟨ha, hname, hvalue⟩ := h.lt_brk List.mem_cons_self
  have hvar : (s.withVar name value).var a = s.var a := withVar_var_of_lt ha
  have hstub : s.brk ∉ (s.withVar name value).freed := h.brk_notMem 0
  have halive : a ∉ (s.withVar name value).freed := h.live.var_live List.mem_cons_self
  have hnlive : ((s.withVar name value).var a).name ∉ (s.withVar name value).freed := by
    rw [hvar]
    exact h.live.name_live List.mem_cons_self
  have hmatch' : decide (Matches ((s.withVar name value).str ((s.withVar name value).var a).name)
      name) = true := by
    rw [decide_eq_true_iff, hvar, withVar_str_of_lt hname]
    exact hmatch
  rw [updateVarEnv, bind_done (mkEnvVar_apply s name value), bind_done (get_apply _)]
  show updateLoop name value s.brk (k + 1) s.vars (s.withVar name value) = _
  rw [hvars, updateLoop, bind_done (deref_live halive), bind_done (matchName_live hnlive),
    if_pos hmatch', bind_done (deref_live hstub), bind_done (assign_live halive _), hvar]
  generalize ht₁ : (s.withVar name value).setVar a _ = t₁
  have hstub₁ : s.brk ∉ t₁.freed := by
    rw [← ht₁]
    exact hstub
  rw [bind_done (assign_live hstub₁ _)]
  generalize ht₂ : t₁.setVar s.brk _ = t₂
  -- the stub has the old value now, and goes with it
  have hnew : (s.withVar name value).var s.brk = ⟨s.brk + 1, s.brk + 2, none⟩ :=
    Function.update_self ..
  have hvar₂ : t₂.var s.brk = ⟨s.brk + 1, (s.var a).value, none⟩ := by
    rw [← ht₂, setVar]
    simp [hnew]
  have hfreed₂ : t₂.freed = s.freed := by
    rw [← ht₂, ← ht₁]
    rfl
  have hnodup : (t₂.blocks s.brk).Nodup := by
    rw [blocks, hvar₂]
    simp only [List.nodup_cons, List.mem_cons, List.not_mem_nil, or_false, not_or]
    refine ⟨⟨?_, ?_⟩, ?_, ?_⟩
    · omega
    · omega
    · omega
    · exact ⟨not_false, List.nodup_nil⟩
  have hlive₂ : ∀ x ∈ t₂.blocks s.brk, x ∉ t₂.freed := by
    intro x hx
    rw [hfreed₂]
    rw [mem_blocks, hvar₂] at hx
    rcases hx with rfl | rfl | rfl
    · exact h.brk_notMem 0
    · exact h.brk_notMem 1
    · exact h.live.value_live List.mem_cons_self
  rw [bind_done (freeEnvVar_apply hnodup hlive₂), hvar₂, pure_apply, hfreed₂, ← ht₂, ← ht₁, hnew]
  rfl

theorem withValue_var_self (ha : a < s.brk) :
  (s.withValue a name value).var a = { s.var a with value := s.brk + 2 }
  := by
  apply (Function.update_of_ne (Nat.ne_of_lt ha) _ _).trans
  rw [Function.update_self]

theorem withValue_var_of_ne {b : ℕ} (hb : b < s.brk) (hne : b ≠ a) :
  (s.withValue a name value).var b = s.var b
  := by
  apply (Function.update_of_ne (Nat.ne_of_lt hb) _ _).trans
  rw [Function.update_of_ne hne, withVar_var_of_lt hb]

theorem Holds.ne_of_mem {b : ℕ} (h : s.Holds (a :: l)) (hb : b ∈ l) :
  b ≠ a
  := by
  rintro rfl
  apply (live_cons.mp h.live).2.2.1 b (mem_blocks.mpr (.inl rfl))
  exact List.mem_flatMap.mpr ⟨b, hb, mem_blocks.mpr (.inl rfl)⟩

/-- The other bindings are as they were. -/
theorem withValue_binding_of_mem {b : ℕ} (h : s.Holds (a :: l)) (hb : b ∈ l) :
  (s.withValue a name value).blocks b = s.blocks b
    ∧ (s.withValue a name value).binding b = s.binding b
  := by
  obtain ⟨hlt, hname, hvalue⟩ := h.lt_brk (List.mem_cons_of_mem a hb)
  have hvar : (s.withValue a name value).var b = s.var b :=
    withValue_var_of_ne hlt (h.ne_of_mem hb)
  constructor
  · rw [blocks, hvar, blocks]
  · rw [binding, hvar, binding]
    congr 1
    · exact withVar_str_of_lt hname
    · exact withVar_str_of_lt hvalue

/-- The first binding has the new value. -/
theorem withValue_binding_self (h : s.Holds (a :: l)) (name value : DString) :
  (s.withValue a name value).binding a = ((s.binding a).1, value)
  := by
  obtain ⟨ha, hname, -⟩ := h.lt_brk List.mem_cons_self
  rw [binding, withValue_var_self ha, binding]
  congr 1
  · exact withVar_str_of_lt hname
  · exact Function.update_self ..

/-- The bindings are in the same blocks after the value of the first one was replaced. -/
theorem Holds.withValue (h : s.Holds (a :: l)) (name value : DString) :
  (s.withValue a name value).Holds (a :: l)
  := by
  obtain ⟨hvars, hrest⟩ := h.threads
  obtain ⟨ha, hname, hvalue⟩ := h.lt_brk List.mem_cons_self
  obtain ⟨hnodup, hnotMem, hapart, hlive⟩ := live_cons.mp h.live
  have hself : (s.withValue a name value).var a = { s.var a with value := s.brk + 2 } :=
    withValue_var_self ha
  have hblocks : ∀ b ∈ l, (s.withValue a name value).blocks b = s.blocks b :=
    fun b hb => (withValue_binding_of_mem h hb).1
  have hflat : l.flatMap (s.withValue a name value).blocks = l.flatMap s.blocks := by
    rw [List.flatMap_def, List.flatMap_def, List.map_congr_left hblocks]
  have hgiven : ∀ x ∈ l.flatMap s.blocks, x < s.brk := by
    intro x hx
    apply h.given
    rw [List.flatMap_cons]
    exact List.mem_append_right _ hx
  have hnew : ∀ x ∈ (s.withValue a name value).blocks a,
      x = s.brk + 2 ∨ x ∈ s.blocks a ∧ x < s.brk ∧ x ≠ (s.var a).value := by
    intro x hx
    simp only [blocks, List.nodup_cons, List.mem_cons, List.not_mem_nil, or_false, not_or]
      at hnodup
    rw [mem_blocks, hself] at hx
    rcases hx with rfl | rfl | rfl
    · exact .inr ⟨mem_blocks.mpr (.inl rfl), ha, hnodup.1.2⟩
    · exact .inr ⟨mem_blocks.mpr (.inr (.inl rfl)), hname, hnodup.2.1⟩
    · exact .inl rfl
  have hfreed : ∀ x, x ∈ (s.withValue a name value).freed →
      x ∈ s.freed ∨ x = s.brk + 1 ∨ x = (s.var a).value ∨ x = s.brk := by
    intro x hx
    rcases List.mem_append.mp hx with hx | hx
    · exact .inl hx
    · simp only [List.mem_cons, List.not_mem_nil, or_false] at hx
      exact .inr hx
  constructor
  · refine ⟨hvars, ?_⟩
    show Threads _ ((s.withValue a name value).var a).next l
    rw [hself]
    apply hrest.frame
    intro b hb
    rw [withValue_var_of_ne (h.lt_brk (List.mem_cons_of_mem a hb)).1 (h.ne_of_mem hb)]
  · rw [live_cons]
    refine ⟨?_, ?_, ?_, ?_⟩
    · simp only [blocks, List.nodup_cons, List.mem_cons, List.not_mem_nil, or_false, not_or]
        at hnodup
      rw [blocks, hself]
      simp only [List.nodup_cons, List.mem_cons, List.not_mem_nil, or_false, not_or]
      refine ⟨⟨hnodup.1.1, ?_⟩, ?_, not_false, List.nodup_nil⟩
      · omega
      · omega
    · intro x hx hx'
      rcases hnew x hx with rfl | ⟨hx, hlt, hne⟩
      · rcases hfreed _ hx' with hmem | heq | heq | heq
        · exact h.brk_notMem 2 hmem
        · omega
        · omega
        · omega
      · rcases hfreed _ hx' with hmem | heq | heq | heq
        · exact hnotMem x hx hmem
        · omega
        · exact hne heq
        · omega
    · intro x hx hx'
      rw [hflat] at hx'
      rcases hnew x hx with rfl | ⟨hx, -, -⟩
      · have := hgiven _ hx'
        omega
      · exact hapart x hx hx'
    · apply hlive.frame hblocks
      intro x hx hx'
      have hlt := hgiven x hx
      rcases hfreed x hx' with hmem | heq | rfl | heq
      · exact hmem
      · omega
      · exact (hapart _ (mem_blocks.mpr (.inr (.inr rfl))) hx).elim
      · omega
  · intro x hx
    show x < s.brk + 3
    rw [List.flatMap_cons, hflat] at hx
    rcases List.mem_append.mp hx with hx | hx
    · rcases hnew x hx with rfl | ⟨-, hlt, -⟩
      · omega
      · omega
    · have := hgiven x hx
      omega
  · intro x hx
    show x < s.brk + 3
    rcases hfreed x hx with hmem | rfl | rfl | rfl
    · have := h.freed x hmem
      omega
    · omega
    · omega
    · omega

/-- An update does what it should exactly if there is no binding or the first one matches. -/
theorem updatesFirst_iff (h : s.Holds l) (name value : DString) :
  s.UpdatesFirst l name value ↔ ∀ a ∈ l.head?, Matches (s.binding a).1 name
  := by
  cases l with
  | nil =>
      constructor
      · intro _ a ha
        cases ha
      · intro _
        refine ⟨1, ?_⟩
        intro k hk
        obtain ⟨k, rfl⟩ := Nat.exists_eq_add_of_le' hk
        refine ⟨_, _, updateVarEnv_nil h name value k, [s.brk], h.withBinding name value, ?_⟩
        rw [List.map_singleton, withBinding_binding_new]
        simp [updated]
  | cons a l =>
      have hhead : (∀ b ∈ (a :: l).head?, Matches (s.binding b).1 name)
          ↔ Matches (s.binding a).1 name := by
        simp
      rw [hhead]
      obtain ⟨ha, hname, -⟩ := h.lt_brk List.mem_cons_self
      constructor
      · rintro ⟨k₀, hupdate⟩
        by_contra hmatch
        obtain ⟨r, s', hrun, -⟩ := hupdate k₀ (le_refl k₀)
        have hvar : (s.withVar name value).var a = s.var a := withVar_var_of_lt ha
        have hendless : updateVarEnv k₀ name value s = .stop .endless (s.withVar name value) := by
          rw [updateVarEnv, bind_done (mkEnvVar_apply s name value), bind_done (get_apply _)]
          show updateLoop name value s.brk k₀ s.vars (s.withVar name value) = _
          rw [h.threads.1]
          apply updateLoop_endless
          · exact h.live.var_live List.mem_cons_self
          · rw [hvar]
            exact h.live.name_live List.mem_cons_self
          · rw [hvar, withVar_str_of_lt hname]
            exact hmatch
        rw [hendless] at hrun
        cases hrun
      · intro hmatch
        refine ⟨1, ?_⟩
        intro k hk
        obtain ⟨k, rfl⟩ := Nat.exists_eq_add_of_le' hk
        refine ⟨_, _, updateVarEnv_first h hmatch value k, a :: l, h.withValue name value, ?_⟩
        have hothers : l.map (s.withValue a name value).binding = l.map s.binding := by
          apply List.map_congr_left
          intro b hb
          exact (withValue_binding_of_mem h hb).2
        have hsome : ∃ b ∈ s.binding a :: l.map s.binding, Matches b.1 name :=
          ⟨_, List.mem_cons_self, hmatch⟩
        rw [List.map_cons, List.map_cons, hothers, withValue_binding_self h, updated,
          if_pos hsome, replaceFirst, if_pos hmatch]

/-- Unset never does what it should, and update does exactly if there is no binding or the first
one matches. -/
theorem unset_and_update_iff (h : s.Holds l) (name value : DString) :
  ¬ s.UnsetsAll l name
    ∧ (s.UpdatesFirst l name value ↔ ∀ a ∈ l.head?, Matches (s.binding a).1 name)
  := ⟨not_unsetsAll h name, updatesFirst_iff h name value⟩

/-- The first of two bindings is updated. -/
theorem unset_and_update_iff_two :
  ¬ two.UnsetsAll [3, 0] ⟨[98, 98], by decide⟩
    ∧ two.UpdatesFirst [3, 0] ⟨[98, 98], by decide⟩ ⟨[51], by decide⟩
  := by
  obtain ⟨hunset, hupdate⟩ :=
    unset_and_update_iff two_holds ⟨[98, 98], by decide⟩ ⟨[51], by decide⟩
  refine ⟨hunset, hupdate.mpr ?_⟩
  rintro a ⟨⟩
  decide

/-- Neither is `bb` unset as it should be, nor `a` updated. -/
theorem not_unset_not_update :
  ¬ two.UnsetsAll [3, 0] ⟨[98, 98], by decide⟩
    ∧ ¬ two.UpdatesFirst [3, 0] ⟨[97], by decide⟩ ⟨[51], by decide⟩
  := by
  refine ⟨not_unsetsAll two_holds _, ?_⟩
  rw [updatesFirst_iff two_holds]
  intro h
  have hmatch := h 3 rfl
  revert hmatch
  decide

end Env

end Torgo
