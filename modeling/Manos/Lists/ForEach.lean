import Manos.Lib.Exec
import Manos.Lib.Ring

/-!
# Iterating over a list

The macro `LIST_FOR_EACH_ENTRY_SAFE` of `list.h`, over any program state that has links in it.
An entry is named by its node, and the pointer to an entry is `none` where the code has `NULL`.
-/

namespace ListHead

open Exec

variable {σ ν : Type} [DecidableEq ν] (links : σ → Links ν) (null head : ν)

/-! ### The macros -/

/-- `node->next` -/
def next (node : ν) : Exec σ ν := do
  if node = null then fault (.null "node")
  let s ← get
  return (links s).next node

/-- `listIsEmpty` -/
def listIsEmpty : Exec σ Bool := do
  let x ← next links null head
  return x = head

/-- `LIST_FIRST_ENTRY_OR_NULL` -/
def listFirstEntryOrNull : Exec σ (Option ν) := do
  if ← listIsEmpty links null head then return none
  return some (← next links null head)

/-- `LIST_NEXT_ENTRY_OR_NULL` -/
def listNextEntryOrNull : Option ν → Exec σ (Option ν)
  | none => fault (.null "pos")
  | some pos => do
      if pos = head then return none
      return some (← next links null pos)

/-- The loop of `LIST_FOR_EACH_ENTRY_SAFE`, which runs the body at most as often as the bound
says. -/
def eachLoop (body : ν → Exec σ Unit) : ℕ → Option ν → Option ν → Exec σ Unit
  | _, none, _ => pure ()
  | 0, some pos, _ => if pos = head then pure () else fault .endless
  | k + 1, some pos, x =>
      if pos = head then pure ()
      else do
        body pos
        let pos := x
        let x ← listNextEntryOrNull links null head x
        eachLoop body k pos x

/-- `LIST_FOR_EACH_ENTRY_SAFE` -/
def listForEachEntrySafe (body : ν → Exec σ Unit) (k : ℕ) : Exec σ Unit := do
  let pos ← listFirstEntryOrNull links null head
  let x ← if pos ≠ none then listNextEntryOrNull links null head pos else pure none
  eachLoop links null head body k pos x

/-- The nodes `l` are on the list with the head `head`, and `NULL` is none of them. -/
structure IsList (K : Links ν) (l : List ν) : Prop where
  ring : K.Ring head l
  null : null ∉ head :: l

/-! ### Bodies -/

/-- What the body of a loop does to the current entry: nothing, `listUnlink` or
`listUnlinkAndInit`. -/
inductive Removal where
  | keep
  | unlink
  | unlinkAndInit
deriving DecidableEq, Repr

/-- The links after the body did so. -/
def Removal.apply (x : ν) (K : Links ν) : Removal → Links ν
  | keep => K
  | unlink => K.unlink null x
  | unlinkAndInit => K.unlinkInit x

/--
A body that may unlink the current entry, as `removal` tells, and touches no other node of the
list.  It may do anything to the rest of the state and to an entry after it was unlinked, and
needs and keeps the invariant `I`.
-/
structure SafeBody (I : σ → Prop) (removal : ν → σ → Removal) (body : ν → Exec σ Unit) : Prop where
  run : ∀ s l x, I s → IsList null head (links s) l → x ∈ l →
    Returns s (body x) fun _ s' => I s' ∧ ∀ y ∈ head :: l, y ≠ x ∨ removal x s = .keep →
      ((removal x s).apply null x (links s)).SameAt (links s') y

/-- The entries of `l` that the body does not unlink, when it is run on them one after
another. -/
def remaining (removal : ν → σ → Removal) (body : ν → Exec σ Unit) : List ν → σ → List ν
  | [], _ => []
  | x :: l, s =>
      if removal x s = .keep then x :: remaining removal body l (body x s).state
      else remaining removal body l (body x s).state

variable {links null head} {I : σ → Prop} {removal : ν → σ → Removal} {body : ν → Exec σ Unit}
variable {s : σ} {l l₁ l₂ : List ν} {x y : ν}

/-! ### Turns -/

omit [DecidableEq ν] in
theorem IsList.ne_head {K : Links ν} (h : IsList null head K (l₁ ++ x :: l₂)) :
  x ≠ head
  := by
  rintro rfl
  have := (List.nodup_cons.mp h.ring.nodup).1
  simp at this

omit [DecidableEq ν] in
theorem IsList.ne_null {K : Links ν} (h : IsList null head K l) (hx : x ∈ head :: l) :
  x ≠ null
  := by
  rintro rfl
  exact h.null hx

theorem next_done (hx : x ≠ null) :
  next links null x s = .done ((links s).next x) s
  := by
  rw [next, if_neg hx]
  rfl

theorem listFirstEntryOrNull_apply (hh : head ≠ null) (s : σ) :
  listFirstEntryOrNull links null head s
    = .done (if (links s).next head = head then none else some ((links s).next head)) s
  := by
  have hempty : listIsEmpty links null head s
      = .done (decide ((links s).next head = head)) s := by
    rw [listIsEmpty, bind_done (next_done hh)]
    rfl
  rw [listFirstEntryOrNull, bind_done hempty]
  by_cases hnext : (links s).next head = head
  · rw [decide_eq_true hnext, if_pos rfl, if_pos hnext]
    rfl
  · rw [decide_eq_false hnext, if_neg Bool.false_ne_true, if_neg hnext]
    exact bind_done (next_done hh)

theorem listFirstEntryOrNull_done (h : IsList null head (links s) l) :
  listFirstEntryOrNull links null head s = .done l.head? s
  := by
  rw [listFirstEntryOrNull_apply (h.ne_null List.mem_cons_self), h.ring.neighbours_head.1]
  cases l with
  | nil => rw [List.headD_nil, if_pos rfl, List.head?_nil]
  | cons x l =>
      have hlist : IsList null head (links s) ([] ++ x :: l) := h
      have hne : x ≠ head := hlist.ne_head
      rw [List.headD_cons, if_neg hne, List.head?_cons]

/-- The look-ahead of the loop, at the node after `l₁`. -/
theorem listNextEntryOrNull_done (h : IsList null head (links s) (l₁ ++ l₂)) :
  listNextEntryOrNull links null head (some (l₂.headD head)) s
    = .done (if l₂ = [] then none else some (l₂.tail.headD head)) s
  := by
  cases l₂ with
  | nil =>
      rw [listNextEntryOrNull.eq_def]
      simp
  | cons x l =>
      have hx : x ≠ null := h.ne_null (by simp)
      rw [listNextEntryOrNull.eq_def]
      dsimp only [List.headD_cons]
      rw [if_neg h.ne_head]
      change ((next links null x) >>= _) s = _
      rw [bind_done (next_done hx), h.ring.neighbours.2]
      simp

/-- What the look-ahead finds if it is read. -/
theorem listNextEntryOrNull_cases {pos : ν} {x : Option ν} {s' : σ}
    (h : listNextEntryOrNull links null head (some pos) s = .done x s') :
  s' = s ∧ (pos ≠ head → x = some ((links s).next pos))
  := by
  rw [listNextEntryOrNull.eq_def] at h
  dsimp only at h
  by_cases hpos : pos = head
  · rw [if_pos hpos] at h
    cases h
    exact ⟨rfl, fun hne => absurd hpos hne⟩
  · rw [if_neg hpos] at h
    by_cases hnull : pos = null
    · rw [hnull, next, if_pos rfl] at h
      cases h
    · replace h := (bind_done (next_done hnull)).symm.trans h
      cases h
      exact ⟨rfl, fun _ => rfl⟩

theorem Removal.isList {K : Links ν} (r : Removal) (h : IsList null head K (l₁ ++ x :: l₂)) :
  IsList null head (r.apply null x K) ((if r = .keep then l₁ ++ [x] else l₁) ++ l₂)
  := by
  have hnull : null ∉ head :: (l₁ ++ l₂) := by
    intro hmem
    apply h.null
    simp only [List.mem_cons, List.mem_append] at hmem ⊢
    tauto
  cases r with
  | keep =>
      rw [if_pos rfl, List.append_assoc]
      exact h
  | unlink =>
      rw [if_neg (by decide)]
      exact ⟨h.ring.unlink null, hnull⟩
  | unlinkAndInit =>
      rw [if_neg (by decide)]
      exact ⟨h.ring.unlinkInit, hnull⟩

/-- A turn of the loop leaves the other entries on the list. -/
theorem SafeBody.turn (hbody : SafeBody links null head I removal body) (hI : I s)
    (h : IsList null head (links s) (l₁ ++ x :: l₂)) :
  Returns s (body x) fun _ s' => I s' ∧
    IsList null head (links s') ((if removal x s = .keep then l₁ ++ [x] else l₁) ++ l₂)
  := by
  have hx : x ∈ l₁ ++ x :: l₂ := by simp
  apply (hbody.run s _ x hI h hx).mono
  rintro _ s' ⟨hI', hsame⟩
  have hremoved := (removal x s).isList h
  refine ⟨hI', hremoved.ring.frame ?_, hremoved.null⟩
  intro y hy
  by_cases hkeep : removal x s = .keep
  · rw [if_pos hkeep, List.append_assoc] at hy
    exact hsame y hy (.inr hkeep)
  · rw [if_neg hkeep] at hy
    refine hsame y ?_ (.inl (h.ring.ne_of_mem hy))
    simp only [List.mem_cons, List.mem_append] at hy ⊢
    tauto

/-! ### The loop -/

theorem eachLoop_none (body : ν → Exec σ Unit) (k : ℕ) (x : Option ν) :
  eachLoop links null head body k none x = pure ()
  := by
  cases k with
  | zero => rfl
  | succ k => rfl

theorem eachLoop_head (body : ν → Exec σ Unit) (k : ℕ) (x : Option ν) :
  eachLoop links null head body k (some head) x = pure ()
  := by
  cases k with
  | zero => exact if_pos rfl
  | succ k => exact if_pos rfl

/-- The loop runs the body on the entries `l₂` that it has not come to, and leaves the entries
`l₁` before them, which the body has left, as they are. -/
theorem eachLoop_eq (hbody : SafeBody links null head I removal body) {k : ℕ} {x : Option ν}
    (hI : I s) (h : IsList null head (links s) (l₁ ++ l₂)) (hk : l₂.length ≤ k)
    (hx : l₂ ≠ [] → x = some (l₂.tail.headD head)) :
  eachLoop links null head body k (some (l₂.headD head)) x s = l₂.forM body s ∧
    Returns s (l₂.forM body) fun _ s' =>
      I s' ∧ IsList null head (links s') (l₁ ++ remaining removal body l₂ s)
  := by
  induction l₂ generalizing s l₁ k x with
  | nil => exact ⟨congrFun (eachLoop_head body k x) s, Returns.pure ⟨hI, h⟩⟩
  | cons y l ih =>
      cases k with
      | zero => cases hk
      | succ k =>
          obtain ⟨_, s', hrun, hI', h'⟩ := hbody.turn hI h
          -- the look-ahead was read before the body ran, and the one after it is read now
          have hloop : eachLoop links null head body (k + 1) (some y) x s
              = eachLoop links null head body k (some (l.headD head))
                (if l = [] then none else some (l.tail.headD head)) s' := by
            rw [hx (List.cons_ne_nil _ _), eachLoop, if_neg h.ne_head, bind_done hrun]
            exact bind_done (listNextEntryOrNull_done h')
          have hforM : (y :: l).forM body s = l.forM body s' := bind_done hrun
          obtain ⟨heq, hret⟩ := ih hI' h' (Nat.le_of_succ_le_succ hk) fun hl => if_neg hl
          rw [List.headD_cons, hloop, Returns, hforM]
          refine ⟨heq, ?_⟩
          apply Returns.mono hret
          rintro _ t ⟨hIt, ht⟩
          refine ⟨hIt, ?_⟩
          rw [remaining, hrun, Outcome.state_done]
          by_cases hkeep : removal y s = .keep
          · rw [if_pos hkeep, List.append_assoc] at ht
            rw [if_pos hkeep]
            exact ht
          · rw [if_neg hkeep] at ht ⊢
            exact ht

omit [DecidableEq ν] in
/-- A body that unlinks every entry leaves none. -/
theorem remaining_eq_nil (h : ∀ x s, removal x s ≠ .keep) (l : List ν) (s : σ) :
  remaining removal body l s = []
  := by
  induction l generalizing s with
  | nil => rfl
  | cons x l ih =>
      rw [remaining, if_neg (h x s)]
      apply ih

/-- The macro is a loop over the entries that are on the list at its start. -/
theorem forEachEntrySafe_eq (hbody : SafeBody links null head I removal body) {k : ℕ} (hI : I s)
    (h : IsList null head (links s) l) (hk : l.length ≤ k) :
  listForEachEntrySafe links null head body k s = l.forM body s ∧
    Returns s (l.forM body) fun _ s' =>
      I s' ∧ IsList null head (links s') (remaining removal body l s)
  := by
  rw [listForEachEntrySafe, bind_done (listFirstEntryOrNull_done h)]
  cases l with
  | nil =>
      rw [List.head?_nil, if_neg (fun h => h rfl)]
      refine ⟨?_, Returns.pure ⟨hI, h⟩⟩
      exact congrFun (eachLoop_none body k none) s
  | cons x l =>
      have hlist : IsList null head (links s) ([] ++ x :: l) := h
      have hnext : listNextEntryOrNull links null head (some x) s
          = .done (some (l.headD head)) s := by
        have hlook := listNextEntryOrNull_done hlist
        rw [if_neg (List.cons_ne_nil x l)] at hlook
        exact hlook
      have hloop := eachLoop_eq hbody hI hlist hk fun _ => rfl
      rw [List.head?_cons, if_pos (Option.some_ne_none x)]
      refine ⟨?_, hloop.2⟩
      exact (bind_done hnext).trans hloop.1

/-- Running `LIST_FOR_EACH_ENTRY_SAFE` on a list is running its body on the entries of the list,
once each and in their order: it ends, it follows no link that was cleared, and it leaves a list
of the entries that the body does not unlink. -/
theorem listForEachEntrySafe_runs (hbody : SafeBody links null head I removal body) {k : ℕ}
    (hI : I s) (h : IsList null head (links s) l) (hk : l.length ≤ k) :
  listForEachEntrySafe links null head body k s = l.forM body s ∧ l.Nodup ∧
    Returns s (listForEachEntrySafe links null head body k) fun _ s' =>
      I s' ∧ IsList null head (links s') (remaining removal body l s)
  := by
  obtain ⟨heq, hret⟩ := forEachEntrySafe_eq hbody hI h hk
  refine ⟨heq, (List.nodup_cons.mp h.ring.nodup).2, ?_⟩
  rw [Returns, heq]
  exact hret

/-- The first of two entries is unlinked, and the second one is left. -/
theorem listForEachEntrySafe_runs_two :
  ∃ (K : Links (Fin 4)) (body : Fin 4 → Exec (Links (Fin 4)) Unit),
    body 1 = modify (Links.unlink 3 1) ∧ body 2 = pure () ∧ IsList 3 0 K [1, 2] ∧
      listForEachEntrySafe id 3 0 body 2 K = [1, 2].forM body K ∧
      Returns K (listForEachEntrySafe id 3 0 body 2) fun _ K' => IsList 3 0 K' [2]
  := by
  let K : Links (Fin 4) := Links.addBefore 2 0 (Links.addBefore 1 0 (Links.init 0 ⟨id, id⟩))
  let body : Fin 4 → Exec (Links (Fin 4)) Unit := fun x => when (x = 1) (modify (Links.unlink 3 1))
  have hlist : IsList 3 0 K [1, 2] := by
    have h₀ : (Links.init 0 ⟨id, id⟩ : Links (Fin 4)).Ring 0 [] := Links.alone_init.ring
    have h₁ := h₀.addBefore (x := 1) (by decide)
    have h₂ := h₁.addBefore (x := 2) (by decide)
    exact ⟨h₂, by decide⟩
  have hbody : SafeBody id 3 0 (fun _ => True) (fun x _ => if x = 1 then .unlink else .keep)
      body := by
    constructor
    intro s l x _ _ _
    by_cases hx : x = 1
    · subst hx
      exact ⟨(), _, rfl, trivial, fun y _ _ => ⟨rfl, rfl⟩⟩
    · refine ⟨(), s, ?_, trivial, ?_⟩
      · exact congrFun (when_neg hx _) s
      · intro y _ _
        rw [if_neg hx]
        exact ⟨rfl, rfl⟩
  obtain ⟨heq, -, hret⟩ := listForEachEntrySafe_runs hbody trivial hlist (le_refl 2)
  exact ⟨K, body, rfl, rfl, hlist, heq, hret.mono fun _ _ h => h.2⟩

end ListHead
