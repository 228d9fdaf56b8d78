import Mathlib.Algebra.Group.Nat.Defs
import Mathlib.Data.List.Induction
import Manos.Dev.Walk
import Manos.Lib.BoundedStack

/-!
# Walk trails in memory

The functions of `crumb` and `emptyWalkTrail` on the block of a trail, as calls of a bounded
stack.  `popCrumb` reads the place above the crumb at the top.
-/

namespace Dev

open Exec

/-! ### The functions -/

/-- The values of `errno` that the functions set. -/
inductive TrailErrno where
  | enodata | enobufs | enomem
deriving DecidableEq, Repr

/-- The block of a `WalkTrail`. -/
structure TrailBlock where
  max : ℕ
  top : ℕ
  /-- the memory from `crumbs` on -/
  crumbs : ℕ → Crumb
  /-- the number of the crumbs that the block has room for -/
  room : ℕ

/-- `sizeof *t + (sizeof(Crumb) * n)`, where both sizes are 8. -/
def trailSize (n : ℕ) : ℕ := (8 + 8 * n) % 2 ^ 32

/-- The number of the crumbs in the block of `emptyWalkTrail(n)`. -/
def trailRoom (n : ℕ) : ℕ := (trailSize n - 8) / 8

namespace TrailBlock

/-- `emptyWalkTrail`, where `syskmalloc` tells which sizes are granted.  A block is zero when it
is granted, and `top` is not set. -/
def emptyWalkTrail (syskmalloc : ℕ → Bool) (n : ℕ) : Exec Unit (Except TrailErrno TrailBlock) :=
  if syskmalloc (trailSize n) = false then pure (.error .enomem)
  else if trailSize n < 8 then fault (.wild "t")
  else pure (.ok ⟨n, 0, fun _ => ⟨0, 0⟩, trailRoom n⟩)

/-- `t->crumbs[i]` -/
def load (i : ℕ) : Exec TrailBlock Crumb := do
  let t ← get
  if i < t.room then return t.crumbs i
  else fault (.wild "crumbs")

/-- `t->crumbs[i] = c` -/
def store (i : ℕ) (c : Crumb) : Exec TrailBlock Unit := do
  let t ← get
  if i < t.room then modify fun t => { t with crumbs := Function.update t.crumbs i c }
  else fault (.wild "crumbs")

/-- `pushCrumb` -/
def pushCrumb (c : Crumb) : Exec TrailBlock (Except TrailErrno Unit) := do
  let t ← get
  if t.top ≥ t.max then return .error .enobufs
  store t.top c
  modify fun t => { t with top := t.top + 1 }
  return .ok ()

/-- `popCrumb` -/
def popCrumb : Exec TrailBlock (Except TrailErrno Crumb) := do
  let t ← get
  if t.top = 0 then return .error .enodata
  -- the index of `t->crumbs[t->top--]` is `top` before it is decremented
  let c ← load t.top
  modify fun t => { t with top := t.top - 1 }
  return .ok c

/-- `topCrumb` -/
def topCrumb : Exec TrailBlock (Except TrailErrno Crumb) := do
  let t ← get
  if t.top = 0 then return .error .enodata
  let c ← load (t.top - 1)
  return .ok c

/-- A call of the functions; a function that returns `NULL` stores no crumb. -/
def run : StackCall Crumb → Exec TrailBlock (StackResult Crumb)
  | .push c => do
      let r ← pushCrumb c
      return .pushed r.toOption.isSome
  | .pop => do
      let r ← popCrumb
      return .value r.toOption
  | .top => do
      let r ← topCrumb
      return .value r.toOption

variable {t : TrailBlock} {n room i : ℕ} {c : Crumb} {l : List Crumb}

theorem load_done (h : i < t.room) :
  load i t = .done (t.crumbs i) t
  := by
  rw [load, bind_done (get_apply t), if_pos h]
  rfl

theorem load_stop (h : t.room ≤ i) :
  load i t = .stop (.wild "crumbs") t
  := by
  rw [load, bind_done (get_apply t), if_neg (Nat.not_lt.mpr h)]
  rfl

theorem pushCrumb_full (h : t.max ≤ t.top) :
  pushCrumb c t = .done (.error .enobufs) t
  := by
  rw [pushCrumb, bind_done (get_apply t), if_pos h]
  rfl

theorem pushCrumb_done (hmax : t.top < t.max) (hroom : t.top < t.room) :
  pushCrumb c t = .done (.ok ())
    { t with crumbs := Function.update t.crumbs t.top c, top := t.top + 1 }
  := by
  have hstore : store t.top c t
      = .done () { t with crumbs := Function.update t.crumbs t.top c } := by
    rw [store, bind_done (get_apply t), if_pos hroom]
    rfl
  rw [pushCrumb, bind_done (get_apply t), if_neg (Nat.not_le.mpr hmax)]
  exact bind_done hstore

theorem pushCrumb_stop (hmax : t.top < t.max) (hroom : t.room ≤ t.top) :
  pushCrumb c t = .stop (.wild "crumbs") t
  := by
  have hstore : store t.top c t = .stop (.wild "crumbs") t := by
    rw [store, bind_done (get_apply t), if_neg (Nat.not_lt.mpr hroom)]
    rfl
  rw [pushCrumb, bind_done (get_apply t), if_neg (Nat.not_le.mpr hmax)]
  exact bind_stop hstore

theorem popCrumb_empty (h : t.top = 0) :
  popCrumb t = .done (.error .enodata) t
  := by
  rw [popCrumb, bind_done (get_apply t), if_pos h]
  rfl

theorem popCrumb_done (h : t.top ≠ 0) (hroom : t.top < t.room) :
  popCrumb t = .done (.ok (t.crumbs t.top)) { t with top := t.top - 1 }
  := by
  rw [popCrumb, bind_done (get_apply t), if_neg h]
  exact bind_done (load_done hroom)

theorem popCrumb_stop (h : t.top ≠ 0) (hroom : t.room ≤ t.top) :
  popCrumb t = .stop (.wild "crumbs") t
  := by
  rw [popCrumb, bind_done (get_apply t), if_neg h]
  exact bind_stop (load_stop hroom)

theorem topCrumb_empty (h : t.top = 0) :
  topCrumb t = .done (.error .enodata) t
  := by
  rw [topCrumb, bind_done (get_apply t), if_pos h]
  rfl

theorem topCrumb_done (h : t.top ≠ 0) (hroom : t.top - 1 < t.room) :
  topCrumb t = .done (.ok (t.crumbs (t.top - 1))) t
  := by
  rw [topCrumb, bind_done (get_apply t), if_neg h]
  exact bind_done (load_done hroom)

/-- A function that tests the trail, and returns it behind the test, changes nothing when it returns
`NULL`. -/
theorem refused_of_test {α : Type} {p : Prop} [Decidable p] {e : TrailErrno}
    {x : Exec TrailBlock (Except TrailErrno α)} (h : Ensures t x fun r _ => r.toOption ≠ none) :
  Ensures t (if p then pure (.error e) else x) fun r t' => r.toOption = none → t' = t
  := by
  split
  · exact Ensures.done rfl fun _ => rfl
  · exact h.mono fun r t' hsome hnone => absurd hnone hsome

theorem pushCrumb_refused (t : TrailBlock) (c : Crumb) :
  Ensures t (pushCrumb c) fun r t' => r.toOption = none → t' = t
  := by
  apply Ensures.step (get_apply t)
  apply refused_of_test
  apply Ensures.bind (Ensures.trivial _ _)
  intro _ s _
  exact Ensures.done rfl (Option.some_ne_none _)

theorem popCrumb_refused (t : TrailBlock) :
  Ensures t popCrumb fun r t' => r.toOption = none → t' = t
  := by
  apply Ensures.step (get_apply t)
  apply refused_of_test
  apply Ensures.bind (Ensures.trivial _ _)
  intro c s _
  exact Ensures.done rfl (Option.some_ne_none c)

theorem topCrumb_refused (t : TrailBlock) :
  Ensures t topCrumb fun r t' => r.toOption = none → t' = t
  := by
  apply Ensures.step (get_apply t)
  apply refused_of_test
  apply Ensures.bind (Ensures.trivial _ _)
  intro c s _
  exact Ensures.done rfl (Option.some_ne_none c)

/-- A call that is refused changes nothing. -/
theorem run_refused (t : TrailBlock) (call : StackCall Crumb) :
  Ensures t (run call) fun r t' => r.Refused → t' = t
  := by
  cases call with
  | push c =>
      apply Ensures.bind (pushCrumb_refused t c)
      intro r t' h
      exact Ensures.done rfl fun hr => h (Option.not_isSome_iff_eq_none.mp (Bool.eq_false_iff.mp hr))
  | pop =>
      apply Ensures.bind (popCrumb_refused t)
      intro r t' h
      exact Ensures.done rfl h
  | top =>
      apply Ensures.bind (topCrumb_refused t)
      intro r t' h
      exact Ensures.done rfl h

/-! ### Trails as stacks -/

/-- The trail `t` is a stack of the crumbs `l` that holds at most `n` crumbs. -/
structure Holds (n : ℕ) (l : List Crumb) (t : TrailBlock) : Prop where
  max : t.max = n
  top : t.top = l.length
  crumbs : ∀ i (h : i < l.length), t.crumbs i = l[i]
  /-- the accesses are to the crumbs from `0` to `n - 1` -/
  room_le : t.room ≤ n

/-- The calls on the trail `t` are those of a stack that holds at most `n` crumbs, and a call
after them that is refused changes nothing. -/
def IsStack (n : ℕ) (calls : List (StackCall Crumb)) (t : TrailBlock) : Prop :=
  Returns t (Exec.calls run calls) fun results t' =>
    results = (boundedStack Crumb n).results calls [] ∧
      Holds n ((boundedStack Crumb n).after calls []) t' ∧
      ∀ call r t'', run call t' = .done r t'' → r.Refused → t'' = t'

/-- A call for which the code is right: a crumb is pushed into the block, and one that is popped
is zero and has a place of the block above it. -/
def Allowed (n room : ℕ) : StackCall Crumb → List Crumb → Prop
  | .push _, l => l.length < n → l.length < room
  | .pop, l => l = [] ∨ (l.length < room ∧ l.getLast? = some ⟨0, 0⟩)
  | .top, _ => True

instance decidableAllowed (n room : ℕ) : ∀ call l, Decidable (Allowed n room call l)
  | .push _, l => inferInstanceAs (Decidable (l.length < n → l.length < room))
  | .pop, l => inferInstanceAs (Decidable (l = [] ∨ (l.length < room ∧ l.getLast? = some ⟨0, 0⟩)))
  | .top, _ => .isTrue trivial

/-- The trail with the crumbs `l`, and zeros above them. -/
def holding (n room : ℕ) (l : List Crumb) : TrailBlock :=
  ⟨n, l.length, boundedStack.places ⟨0, 0⟩ l, room⟩

/-- The trail has the crumbs `l`, with zeros above them, and they are in its block. -/
structure Clean (n room : ℕ) (t : TrailBlock) (l : List Crumb) : Prop where
  eq : t = holding n room l
  le : l.length ≤ room

theorem push_clean (hl : l.length < n) (hroom : l.length < room) (c : Crumb) :
  pushCrumb c (holding n room l) = .done (.ok ()) (holding n room (l ++ [c]))
  := by
  rw [pushCrumb_done hl hroom]
  simp only [holding, boundedStack.places_push, List.length_append, List.length_singleton]

theorem pop_clean (hroom : l.length + 1 < room) :
  popCrumb (holding n room (l ++ [⟨0, 0⟩])) = .done (.ok ⟨0, 0⟩) (holding n room l)
  := by
  have htop : (holding n room (l ++ [⟨0, 0⟩])).top = l.length + 1 := by simp [holding]
  have hlt : (holding n room (l ++ [⟨0, 0⟩])).top < (holding n room (l ++ [⟨0, 0⟩])).room := by
    rw [htop]
    exact hroom
  rw [popCrumb_done (by omega) hlt]
  simp only [holding, boundedStack.places_pop, boundedStack.places_of_ge (Nat.le_succ _),
    List.length_append, List.length_singleton, Nat.add_sub_cancel]

theorem top_clean (hroom : (l ++ [c]).length ≤ room) :
  topCrumb (holding n room (l ++ [c])) = .done (.ok c) (holding n room (l ++ [c]))
  := by
  have hlen : (holding n room (l ++ [c])).top = l.length + 1 := by simp [holding]
  have hlt : (holding n room (l ++ [c])).top - 1 < (holding n room (l ++ [c])).room := by
    rw [List.length_append] at hroom
    rw [hlen]
    exact hroom
  rw [topCrumb_done (by omega) hlt, hlen]
  simp only [holding, Nat.add_sub_cancel, boundedStack.places_top]

/-- The calls that are allowed are those of a stack. -/
theorem refinesIf (n room : ℕ) :
  RefinesIf (Allowed n room) (Clean n room) run (boundedStack Crumb n)
  := by
  rintro call t l ⟨rfl, hle⟩ hok
  cases call with
  | push c =>
      by_cases hl : l.length < n
      · have hroom := hok hl
        refine Returns.step (push_clean hl hroom c) (Returns.pure ⟨?_, ?_⟩)
        · simp [boundedStack, hl, Except.toOption]
        · simp only [boundedStack, if_pos hl]
          refine ⟨rfl, ?_⟩
          rw [List.length_append]
          exact hroom
      · refine Returns.step (pushCrumb_full (Nat.le_of_not_lt hl)) (Returns.pure ⟨?_, ?_⟩)
        · simp [boundedStack, hl, Except.toOption]
        · simp only [boundedStack, if_neg hl]
          exact ⟨rfl, hle⟩
  | pop =>
      cases l using List.reverseRecOn with
      | nil => exact Returns.step (popCrumb_empty rfl) (Returns.pure ⟨rfl, rfl, hle⟩)
      | append_singleton l c =>
          rcases hok with hnil | ⟨hroom, hzero⟩
          · simp at hnil
          · have hc : c = ⟨0, 0⟩ := by simpa using hzero
            subst hc
            refine Returns.step (pop_clean (by simpa using hroom)) (Returns.pure ⟨?_, ?_⟩)
            · simp [boundedStack, Except.toOption]
            · simp only [boundedStack, List.dropLast_concat]
              exact ⟨rfl, Nat.le_trans (by simp) hle⟩
  | top =>
      cases l using List.reverseRecOn with
      | nil => exact Returns.step (topCrumb_empty rfl) (Returns.pure ⟨rfl, rfl, hle⟩)
      | append_singleton l c =>
          refine Returns.step (top_clean hle) (Returns.pure ⟨?_, rfl, hle⟩)
          simp [boundedStack, Except.toOption]

/-- The other calls are not: they leave the block, or pop a wrong crumb. -/
theorem allowed_of_returns {call : StackCall Crumb} (h : Clean n room t l)
    (hrun : Returns t (run call) fun r _ => r = (boundedStack Crumb n).result call l) :
  Allowed n room call l
  := by
  obtain ⟨rfl, hle⟩ := h
  obtain ⟨r, t', hrun, hr⟩ := hrun
  cases call with
  | push c =>
      intro hl
      by_contra hroom
      rw [run, bind_stop (pushCrumb_stop hl (Nat.le_of_not_lt hroom))] at hrun
      cases hrun
  | pop =>
      by_cases hnil : l = []
      · exact .inl hnil
      · have htop : (holding n room l).top ≠ 0 := by simpa [holding] using hnil
        right
        by_cases hroom : l.length < room
        · refine ⟨hroom, ?_⟩
          rw [run, bind_done (popCrumb_done htop hroom)] at hrun
          cases hrun
          have hpop : some (boundedStack.places ⟨0, 0⟩ l l.length) = l.getLast? := by
            simpa [boundedStack, Except.toOption, holding] using hr
          rw [← hpop, boundedStack.places_of_ge (Nat.le_refl _)]
        · rw [run, bind_stop (popCrumb_stop htop (Nat.le_of_not_lt hroom))] at hrun
          cases hrun
  | top => trivial

/-- The trail that was made is empty. -/
theorem emptyWalkTrail_clean {syskmalloc : ℕ → Bool} {u : Unit}
    (h : emptyWalkTrail syskmalloc n () = .done (.ok t) u) :
  Clean n (trailRoom n) t []
  := by
  rw [emptyWalkTrail] at h
  split at h
  · cases h
  · split at h
    · cases h
    · cases h
      exact ⟨rfl, Nat.zero_le _⟩

/-- A block has no room for more crumbs than were asked for. -/
theorem trailRoom_le (n : ℕ) :
  trailRoom n ≤ n
  := by
  have hle : trailSize n ≤ 8 + 8 * n := Nat.mod_le _ _
  rw [trailRoom]
  omega

/-- A block has room for the crumbs that were asked for, as long as its size is less than
`2 ^ 32`. -/
theorem trailRoom_eq (h : n < 2 ^ 29 - 1) :
  trailRoom n = n
  := by
  have hsize : trailSize n = 8 + 8 * n := Nat.mod_eq_of_lt (by omega)
  rw [trailRoom, hsize]
  omega

/-! ### The trails of walks -/

/-- A walk pushes onto a trail as `Dev.pushCrumb` says. -/
theorem Clean.walk_push (h : Clean n n t l) (c : Crumb) :
  Returns t (pushCrumb c) fun _ t' => Clean n n t' (Dev.pushCrumb ⟨n, l⟩ c).crumbs
  := by
  obtain ⟨rfl, hle⟩ := h
  rw [Dev.pushCrumb]
  by_cases hl : l.length < n
  · rw [if_neg (Nat.not_le.mpr hl)]
    refine ⟨_, _, push_clean hl hl c, rfl, ?_⟩
    rw [List.length_append]
    exact hl
  · rw [if_pos (Nat.le_of_not_lt hl)]
    exact ⟨_, _, pushCrumb_full (Nat.le_of_not_lt hl), rfl, hle⟩

/-- The crumb at the top of a trail is that of `Dev.topCrumb`. -/
theorem Clean.walk_top (h : Clean n n t l) (c : Crumb) :
  Returns t topCrumb fun r t' => r.toOption.getD c = Dev.topCrumb ⟨n, l⟩ c ∧ t' = t
  := by
  obtain ⟨rfl, hle⟩ := h
  rw [Dev.topCrumb]
  cases l using List.reverseRecOn with
  | nil => exact ⟨_, _, topCrumb_empty rfl, rfl, rfl⟩
  | append_singleton l d =>
      refine ⟨_, _, top_clean hle, ?_, rfl⟩
      rw [List.getLast?_concat]
      rfl

/-! ### The calls on a trail -/

theorem Clean.holds (h : Clean n room t l) (hn : room ≤ n) :
  Holds n l t
  := by
  obtain ⟨rfl, -⟩ := h
  exact ⟨rfl, rfl, fun i hi => boundedStack.places_of_lt hi, hn⟩

/-- The calls on a trail that was made are those of a stack exactly when every pop of a crumb
takes one that is zero and not in the last place of the block, and no crumb is pushed behind the
block. -/
theorem isStack_iff {syskmalloc : ℕ → Bool} {u : Unit}
    (hmake : emptyWalkTrail syskmalloc n () = .done (.ok t) u) (calls : List (StackCall Crumb)) :
  IsStack n calls t ↔ (boundedStack Crumb n).Allows (Allowed n (trailRoom n)) calls []
  := by
  have hclean := emptyWalkTrail_clean hmake
  have hif := refinesIf n (trailRoom n)
  constructor
  · intro h
    apply hif.allows (fun call t l => allowed_of_returns) hclean
    apply Returns.mono h
    rintro results t' ⟨hresults, -⟩
    exact hresults
  · intro h
    apply Returns.mono (hif.calls hclean h)
    rintro results t' ⟨hresults, hclean'⟩
    refine ⟨hresults, hclean'.holds (trailRoom_le n), ?_⟩
    intro call r t'' hrun hr
    exact (run_refused t' call).holds r t'' hrun hr

/-- A trail for two crumbs: the crumbs of a walk are pushed, a third one is refused, and the last
one is at the top. -/
theorem isStack_iff_two :
  (emptyWalkTrail (fun _ => true) 2 () = .done (.ok (holding 2 2 [])) () ∧
    (boundedStack Crumb 2).Allows (Allowed 2 (trailRoom 2))
      [.top, .push ⟨0x82, 0⟩, .push ⟨0x82, 1⟩, .push ⟨0x82, 2⟩, .top] []) ∧
    IsStack 2 [.top, .push ⟨0x82, 0⟩, .push ⟨0x82, 1⟩, .push ⟨0x82, 2⟩, .top] (holding 2 2 [])
  := by
  have hmake : emptyWalkTrail (fun _ => true) 2 () = .done (.ok (holding 2 2 [])) () := rfl
  have hallows : (boundedStack Crumb 2).Allows (Allowed 2 (trailRoom 2))
      [.top, .push ⟨0x82, 0⟩, .push ⟨0x82, 1⟩, .push ⟨0x82, 2⟩, .top] [] := by decide
  exact ⟨⟨hmake, hallows⟩, (isStack_iff hmake _).mpr hallows⟩

/-- The crumb that was pushed is not the one that is popped. -/
theorem not_isStack :
  ¬ ∀ (syskmalloc : ℕ → Bool) (n : ℕ) (t : TrailBlock),
    emptyWalkTrail syskmalloc n () = .done (.ok t) () → ∀ calls, IsStack n calls t
  := by
  intro h
  have hmake : emptyWalkTrail (fun _ => true) 2 () = .done (.ok (holding 2 2 [])) () := rfl
  obtain ⟨results, t', hrun, hresults, -⟩ := h _ _ _ hmake [.push ⟨0x82, 1⟩, .pop]
  cases hrun
  revert hresults
  decide

end TrailBlock

end Dev
