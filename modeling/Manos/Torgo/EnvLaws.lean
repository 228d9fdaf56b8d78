import Manos.Torgo.Env

/-!
# What the operations on an environment do

Lookup finds the first binding whose name matches.  `addVarEnv` puts a binding in front of the
others.  The loop of `updateVarEnv` stays at the first binding; `unsetVarEnv` leaves no binding.
-/

namespace Torgo

open Exec

namespace Env

variable {s : Env} {a x : ℕ} {l : List ℕ} {name value : DString}

/-! ### Lookup -/

/-- The first binding whose name matches. -/
def found (s : Env) (l : List ℕ) (name : DString) : Option ℕ :=
  l.find? fun a => Matches (s.binding a).1 name

theorem found_cons_pos (h : Matches (s.binding a).1 name) :
  s.found (a :: l) name = some a
  := List.find?_cons_of_pos (decide_eq_true h)

theorem found_cons_neg (h : ¬ Matches (s.binding a).1 name) :
  s.found (a :: l) name = s.found l name
  := List.find?_cons_of_neg fun h' => h (of_decide_eq_true h')

/-- The loop finds the first binding that matches, if it may make so many turns. -/
theorem lookupLoop_apply {p : Option ℕ} {k : ℕ} (hthreads : Threads (fun a => (s.var a).next) p l)
    (hlive : s.Live l) (hk : l.length < k) :
  lookupLoop name k p s = .done ((s.found l name).map fun a => (s.var a).value) s
  := by
  induction l generalizing p k with
  | nil =>
      obtain ⟨k, rfl⟩ := Nat.exists_eq_add_of_lt hk
      obtain rfl : p = none := hthreads
      rfl
  | cons a l ih =>
      obtain ⟨k, rfl⟩ : ∃ m, k = m + 1 := Nat.exists_eq_add_of_le' (Nat.one_le_of_lt hk)
      obtain ⟨rfl, hrest⟩ := hthreads
      have hlive' := (live_cons.mp hlive).2.2.2
      rw [lookupLoop, bind_done (deref_live (hlive.var_live List.mem_cons_self)),
        bind_done (matchName_live (hlive.name_live List.mem_cons_self))]
      by_cases hmatch : Matches (s.binding a).1 name
      · have hpos : decide (Matches (s.str (s.var a).name) name) = true := decide_eq_true hmatch
        rw [if_pos hpos, found_cons_pos hmatch, Option.map_some, pure_apply]
      · have hnot : ¬ decide (Matches (s.str (s.var a).name) name) = true := by
          rw [decide_eq_true_iff]
          exact hmatch
        rw [if_neg hnot, found_cons_neg hmatch]
        exact ih hrest hlive' (Nat.lt_of_succ_lt_succ hk)

/-- Lookup finds the first binding that matches. -/
theorem lookupVarEnv_apply {k : ℕ} (h : s.Holds l) (hk : l.length < k) :
  lookupVarEnv k name s = .done ((s.found l name).map fun a => (s.var a).value) s
  := by
  rw [lookupVarEnv, bind_done (get_apply s), lookupLoop_apply h.threads h.live hk]

/-! ### A new binding -/

/-- The environment with a new binding in front of the others. -/
def withBinding (s : Env) (name value : DString) : Env where
  vars := some s.brk
  var := Function.update s.var s.brk ⟨s.brk + 1, s.brk + 2, s.vars⟩
  str := (s.withVar name value).str
  freed := s.freed
  brk := s.brk + 3

section

theorem Holds.brk_notMem (h : s.Holds l) (n : ℕ) :
  s.brk + n ∉ s.freed
  := by
  intro hmem
  have := h.freed _ hmem
  omega

theorem addVarEnv_apply (h : s.Holds l) (name value : DString) :
  addVarEnv name value s = .done (s.brk + 1) (s.withBinding name value)
  := by
  have hnew : s.brk ∉ (s.withVar name value).freed := h.brk_notMem 0
  rw [addVarEnv, bind_done (mkEnvVar_apply s name value), bind_done (get_apply _),
    bind_done (deref_live hnew), bind_done (assign_live hnew _), bind_done (modify_apply _ _)]
  simp only [setVar, withVar, Function.update_self, Function.update_idem, pure_apply]
  rfl

/-- The blocks and the strings of a binding are below the ones that were not given out. -/
theorem Holds.lt_brk (h : s.Holds l) (ha : a ∈ l) :
  a < s.brk ∧ (s.var a).name < s.brk ∧ (s.var a).value < s.brk
  := by
  have hlt : ∀ x ∈ s.blocks a, x < s.brk := by
    intro x hx
    apply h.given x (List.mem_flatMap.mpr ⟨a, ha, hx⟩)
  exact ⟨hlt a (mem_blocks.mpr (.inl rfl)), hlt _ (mem_blocks.mpr (.inr (.inl rfl))),
    hlt _ (mem_blocks.mpr (.inr (.inr rfl)))⟩

/-- The strings in blocks that were given out stay as they are. -/
theorem withVar_str_of_lt (hx : x < s.brk) :
  (s.withVar name value).str x = s.str x
  := by
  show Function.update (Function.update s.str (s.brk + 1) name) (s.brk + 2) value x = s.str x
  rw [Function.update_of_ne (by omega), Function.update_of_ne (by omega)]

theorem withBinding_var_of_mem (h : s.Holds l) (ha : a ∈ l) :
  (s.withBinding name value).var a = s.var a
  := Function.update_of_ne (Nat.ne_of_lt (h.lt_brk ha).1) _ _

/-- The bindings that were there are as they were. -/
theorem withBinding_binding (h : s.Holds l) (ha : a ∈ l) :
  (s.withBinding name value).binding a = s.binding a
  := by
  obtain ⟨-, hname, hvalue⟩ := h.lt_brk ha
  rw [binding, withBinding_var_of_mem h ha, binding]
  congr 1
  · exact withVar_str_of_lt hname
  · exact withVar_str_of_lt hvalue

/-- The new binding. -/
theorem withBinding_binding_new (s : Env) (name value : DString) :
  (s.withBinding name value).binding s.brk = (name, value)
  := by
  simp [binding, withBinding, withVar]

/-- The new binding is in front of the others. -/
theorem Holds.withBinding (h : s.Holds l) (name value : DString) :
  (s.withBinding name value).Holds (s.brk :: l)
  := by
  have hvar : (s.withBinding name value).var s.brk = ⟨s.brk + 1, s.brk + 2, s.vars⟩ :=
    Function.update_self ..
  have hblocks : ∀ a ∈ l, (s.withBinding name value).blocks a = s.blocks a := by
    intro a ha
    rw [blocks, withBinding_var_of_mem h ha, blocks]
  have hflat : l.flatMap (s.withBinding name value).blocks = l.flatMap s.blocks := by
    rw [List.flatMap_def, List.flatMap_def, List.map_congr_left hblocks]
  have hnew : ∀ x ∈ (s.withBinding name value).blocks s.brk,
      ∃ i ≤ 2, x = s.brk + i := by
    intro x hx
    rw [mem_blocks, hvar] at hx
    rcases hx with rfl | rfl | rfl
    · exact ⟨0, by omega, rfl⟩
    · exact ⟨1, by omega, rfl⟩
    · exact ⟨2, by omega, rfl⟩
  constructor
  · refine ⟨rfl, ?_⟩
    show Threads _ ((s.withBinding name value).var s.brk).next l
    rw [hvar]
    apply h.threads.frame
    intro y hy
    rw [withBinding_var_of_mem h hy]
  · rw [live_cons]
    refine ⟨?_, ?_, ?_, ?_⟩
    · rw [blocks, hvar]
      simp
    · intro x hx
      obtain ⟨i, -, rfl⟩ := hnew x hx
      apply h.brk_notMem
    · intro x hx hx'
      obtain ⟨i, -, rfl⟩ := hnew x hx
      rw [hflat] at hx'
      have := h.given _ hx'
      omega
    · exact h.live.frame hblocks fun x _ hx => hx
  · intro x hx
    rw [List.flatMap_cons, hflat] at hx
    rcases List.mem_append.mp hx with hx | hx
    · obtain ⟨i, hi, rfl⟩ := hnew x hx
      show s.brk + i < s.brk + 3
      omega
    · exact Nat.lt_add_right 3 (h.given x hx)
  · intro x hx
    exact Nat.lt_add_right 3 (h.freed x hx)

end

/-! ### Shadowing -/

/-- After `n` was bound to `v` in front, lookup gives `v` for `m` if the names are the same and
what it gave before otherwise, and the comparison of the names tells which. -/
def Shadows (s : Env) (n v m : DString) : Prop :=
  matchString n m = some (decide (n = m)) ∧
    ∃ k₀, ∀ k ≥ k₀, Returns s (lookupVarEnv k m) fun r₀ s₀ => s₀ = s ∧
      Returns s (addVarEnv n v >>= fun _ => lookupVarEnv k m) fun r s' =>
        r.map s'.str = if n = m then some v else r₀.map s.str

/-- What lookup gives is the value of the first binding that matches. -/
theorem map_str_found (s : Env) (l : List ℕ) (name : DString) :
  ((s.found l name).map fun a => (s.var a).value).map s.str
    = (s.found l name).map fun a => (s.binding a).2
  := by
  rw [Option.map_map]
  rfl

/-- What is found depends on the bindings. -/
theorem map_found_congr {s' : Env} (h : ∀ a ∈ l, s'.binding a = s.binding a) (name : DString) :
  (s'.found l name).map (fun a => (s'.binding a).2)
    = (s.found l name).map fun a => (s.binding a).2
  := by
  induction l with
  | nil => rfl
  | cons a l ih =>
      have ha := h a List.mem_cons_self
      by_cases hmatch : Matches (s.binding a).1 name
      · rw [found_cons_pos hmatch, found_cons_pos (ha.symm ▸ hmatch), Option.map_some,
          Option.map_some, ha]
      · rw [found_cons_neg hmatch, found_cons_neg (ha.symm ▸ hmatch)]
        exact ih fun b hb => h b (List.mem_cons_of_mem _ hb)

/-- Lookup after a binding is added in front. -/
theorem found_withBinding (h : s.Holds l) (n v m : DString) :
  ((s.withBinding n v).found (s.brk :: l) m).map (fun a => ((s.withBinding n v).binding a).2)
    = if Matches n m then some v else (s.found l m).map fun a => (s.binding a).2
  := by
  have hnew := withBinding_binding_new s n v
  by_cases hmatch : Matches n m
  · rw [found_cons_pos (hnew.symm ▸ hmatch), if_pos hmatch, Option.map_some, hnew]
  · rw [found_cons_neg (hnew.symm ▸ hmatch), if_neg hmatch]
    apply map_found_congr
    intro a ha
    apply withBinding_binding h ha

/-- Lookup gives what it should after a binding is added exactly if the names are the same or
differ before their last byte, too. -/
theorem shadows_iff (h : s.Holds l) (n v m : DString) :
  Shadows s n v m ↔ ¬ (AgreeBeforeLast n m ∧ n ≠ m)
  := by
  constructor
  · rintro ⟨hmatch, -⟩ ⟨hagree, hne⟩
    rw [matchString_eq, decide_eq_true hagree, decide_eq_false hne] at hmatch
    cases hmatch
  · intro hnot
    have hiff : Matches n m ↔ n = m := by
      rw [matches_iff]
      constructor
      · intro hagree
        by_contra hne
        exact hnot ⟨hagree, hne⟩
      · rintro rfl
        exact ⟨rfl, rfl⟩
    refine ⟨?_, l.length + 2, ?_⟩
    · rw [matchString_eq_matches, Option.some.injEq, decide_eq_decide, hiff]
    · intro k hk
      refine ⟨_, s, lookupVarEnv_apply h (by omega), rfl, ?_⟩
      apply Returns.step (addVarEnv_apply h n v)
      refine ⟨_, _, lookupVarEnv_apply (h.withBinding n v) ?_, ?_⟩
      · rw [List.length_cons]
        omega
      · dsimp only
        rw [map_str_found, map_str_found, found_withBinding h]
        simp only [hiff]

/-- An environment without bindings. -/
def empty : Env where
  vars := none
  var := fun _ => ⟨0, 0, none⟩
  str := fun _ => ⟨[], zero_notMem_nil⟩
  freed := []
  brk := 0

theorem empty_holds :
  empty.Holds []
  := by
  refine ⟨rfl, ⟨List.nodup_nil, ?_⟩, ?_, ?_⟩
  · intro x hx
    cases hx
  · intro x hx
    cases hx
  · intro x hx
    cases hx

/-- The environment with `bb = 2` in front of `a = 1` -/
def two : Env :=
  (empty.withBinding ⟨[97], by decide⟩ ⟨[49], by decide⟩).withBinding ⟨[98, 98], by decide⟩
    ⟨[50], by decide⟩

theorem two_holds :
  two.Holds [3, 0]
  := (empty_holds.withBinding _ _).withBinding _ _

/-- A new binding of `bb` is found for `bb`, and that of `a` is still found for `a`. -/
theorem shadows_iff_two :
  Shadows two ⟨[98, 98], by decide⟩ ⟨[51], by decide⟩ ⟨[98, 98], by decide⟩ ∧
    Shadows two ⟨[98, 98], by decide⟩ ⟨[51], by decide⟩ ⟨[97], by decide⟩
  := ⟨(shadows_iff two_holds _ _ _).mpr (by decide), (shadows_iff two_holds _ _ _).mpr (by decide)⟩

/-- The names `a` and `b` are taken for the same. -/
theorem not_shadows :
  ¬ Shadows empty ⟨[97], by decide⟩ ⟨[49], by decide⟩ ⟨[98], by decide⟩
  := by
  rintro ⟨hmatch, -⟩
  revert hmatch
  decide

end Env

end Torgo
