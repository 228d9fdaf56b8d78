import Manos.Lib.Rings
import Manos.Lib.Unlink

/-!
# Interrupted removals

Circular lists of which nodes are taken off by calls of `listUnlinkAndInit` that are interrupted,
at most one call for every list.  The memory is compared with the one in which the calls that have
begun to store have made the rest of their stores: there the lists are always well formed.
-/

namespace Links

variable {ι ν : Type} {head node : ι → ν} {K K' V : Links ν} {used : ι → Prop}
variable {on rest : ι → List ι} {c : ι → Option (ι × UnlinkPoint ν)}
variable {i j m : ι} {x y p n : ν} {l l₁ l₂ : List ι} {a : UnlinkPoint ν}

variable [DecidableEq ν]

/-! ### The stores that calls have still to make -/

/-- What the call on the list `j` has still to store into `next` fields, if it has begun. -/
def callNext (node : ι → ν) (c : ι → Option (ι × UnlinkPoint ν)) (j : ι) : ν → Option (ν × ν) :=
  match c j with
  | some (i, a) => a.pendingNext (node i)
  | none => fun _ => none

/-- What the call on the list `j` has still to store into `prev` fields, if it has begun. -/
def callPrev (node : ι → ν) (c : ι → Option (ι × UnlinkPoint ν)) (j : ι) : ν → Option (ν × ν) :=
  match c j with
  | some (i, a) => a.pendingPrev (node i)
  | none => fun _ => none

/-- No call has still to store at the node. -/
structure Free (node : ι → ν) (c : ι → Option (ι × UnlinkPoint ν)) (y : ν) : Prop where
  next : ∀ j, callNext node c j y = none
  prev : ∀ j, callPrev node c j y = none

/-- In `V` the calls have made the stores that they have still to make in `K`. -/
structure Completed (node : ι → ν) (c : ι → Option (ι × UnlinkPoint ν)) (K V : Links ν) : Prop where
  next : Settled (callNext node c) K.next V.next
  prev : Settled (callPrev node c) K.prev V.prev

theorem callNext_some (hc : c j = some (i, a)) :
  callNext node c j = a.pendingNext (node i)
  := by
  rw [callNext, hc]

theorem callPrev_some (hc : c j = some (i, a)) :
  callPrev node c j = a.pendingPrev (node i)
  := by
  rw [callPrev, hc]

theorem callNext_none (hc : c j = none) :
  callNext node c j = fun _ => none
  := by
  rw [callNext, hc]

theorem callPrev_none (hc : c j = none) :
  callPrev node c j = fun _ => none
  := by
  rw [callPrev, hc]

theorem UnlinkPoint.pending_of_not_begun (h : ¬ a.Begun) (x : ν) :
  a.pendingNext x = (fun _ => none) ∧ a.pendingPrev x = fun _ => none
  := by
  cases a with
  | prev => exact ⟨rfl, rfl⟩
  | next p => exact ⟨rfl, rfl⟩
  | setPrev p n => exact ⟨rfl, rfl⟩
  | _ => exact absurd trivial h

/-- A call that has not begun to store. -/
theorem call_of_not_begun (hc : ∀ i a, c j = some (i, a) → ¬ a.Begun) :
  callNext node c j = (fun _ => none) ∧ callPrev node c j = fun _ => none
  := by
  cases hj : c j with
  | none => exact ⟨callNext_none hj, callPrev_none hj⟩
  | some u =>
      have hpending := UnlinkPoint.pending_of_not_begun (hc u.1 u.2 hj) (node u.1)
      exact ⟨(callNext_some hj).trans hpending.1, (callPrev_some hj).trans hpending.2⟩

namespace Completed

variable (h : Completed node c K V)
include h

/-- The links of a node at which no call has still to store. -/
theorem sameAt (hy : Free node c y) :
  K.SameAt V y
  := ⟨h.next.same y hy.next, h.prev.same y hy.prev⟩

theorem init (hx : Free node c x) :
  Completed node c (K.init x) (V.init x)
  := ⟨h.next.update hx.next x, h.prev.update hx.prev x⟩

/-- A node is put on a list after `y`. -/
theorem addAfter (hx : Free node c x) (hy : ∀ j, callNext node c j y = none)
    (hn : ∀ j, callPrev node c j (K.next y) = none) :
  Completed node c (K.addAfter x y) (V.addAfter x y)
  := by
  rw [Links.addAfter, Links.addAfter, h.next.same y hy]
  exact ⟨(h.next.update hx.next _).update hy _, (h.prev.update hn _).update hx.prev _⟩

/-- A node is taken off its list by code that is not interrupted. -/
theorem unlinkInit (hx : Free node c x) (hp : ∀ j, callNext node c j (K.prev x) = none)
    (hn : ∀ j, callPrev node c j (K.next x) = none) :
  Completed node c (K.unlinkInit x) (V.unlinkInit x)
  := by
  rw [Links.unlinkInit, Links.unlinkInit, (h.sameAt hx).1, (h.sameAt hx).2]
  exact ⟨(h.next.update hp _).update hx.next _, (h.prev.update hn _).update hx.prev _⟩

/-- No call has begun to store. -/
theorem eq_of_not_begun (hc : ∀ j i a, c j = some (i, a) → ¬ a.Begun) :
  V = K
  := by
  have hnext := h.next.eq_of_none fun j => congrFun (call_of_not_begun (hc j)).1
  have hprev := h.prev.eq_of_none fun j => congrFun (call_of_not_begun (hc j)).2
  cases K
  cases V
  exact congrArg₂ _ hnext hprev

/-- All nodes are taken off a list, one after another. -/
theorem unlinkAll {l : List ν} {z : ν} (hr : V.Ring z l) (hfree : ∀ y ∈ z :: l, Free node c y) :
  Completed node c (l.foldl (fun K x => K.unlinkInit x) K)
    (l.foldl (fun K x => K.unlinkInit x) V)
  := by
  induction l generalizing K V with
  | nil => exact h
  | cons x l ih =>
      have hr : V.Ring z ([] ++ x :: l) := hr
      have hx := hfree x (List.mem_cons_of_mem z List.mem_cons_self)
      have hprev : K.prev x = z := (h.sameAt hx).2.symm.trans hr.neighbours.1
      have hnext : K.next x = l.headD z := (h.sameAt hx).1.symm.trans hr.neighbours.2
      have hrest : ∀ y ∈ z :: l, Free node c y := fun y hy => hfree y <| by
        rw [List.mem_cons] at hy
        exact hy.elim (fun hz => hz ▸ List.mem_cons_self) fun hy =>
          List.mem_cons_of_mem z (List.mem_cons_of_mem x hy)
      refine ih (h.unlinkInit hx ?_ ?_) hr.unlinkInit hrest
      · rw [hprev]
        exact (hrest z List.mem_cons_self).next
      · rw [hnext]
        exact (hrest _ headD_mem).prev

end Completed

section

variable [DecidableEq ι]

theorem callNext_update (node : ι → ν) (c : ι → Option (ι × UnlinkPoint ν)) (j : ι)
    (u : Option (ι × UnlinkPoint ν)) :
  callNext node (Function.update c j u) =
    Function.update (callNext node c) j (callNext node (fun _ => u) j)
  := by
  funext m
  by_cases hm : m = j
  · rw [hm, Function.update_self, callNext, callNext, Function.update_self]
  · rw [Function.update_of_ne hm, callNext, callNext, Function.update_of_ne hm]

theorem callPrev_update (node : ι → ν) (c : ι → Option (ι × UnlinkPoint ν)) (j : ι)
    (u : Option (ι × UnlinkPoint ν)) :
  callPrev node (Function.update c j u) =
    Function.update (callPrev node c) j (callPrev node (fun _ => u) j)
  := by
  funext m
  by_cases hm : m = j
  · rw [hm, Function.update_self, callPrev, callPrev, Function.update_self]
  · rw [Function.update_of_ne hm, callPrev, callPrev, Function.update_of_ne hm]

/-- A call that has not begun to store goes on without a store. -/
theorem Completed.read (h : Completed node c K V) (hc : ∀ i a, c j = some (i, a) → ¬ a.Begun)
    (ha : ¬ a.Begun) :
  Completed node (Function.update c j (some (i, a))) K V
  := by
  obtain ⟨hnext, hprev⟩ := UnlinkPoint.pending_of_not_begun ha (node i)
  have hbefore : callNext node c j = (fun _ => none) ∧ callPrev node c j = fun _ => none :=
    call_of_not_begun hc
  constructor
  · rw [callNext_update, callNext_some (c := fun _ => some (i, a)) rfl, hnext, ← hbefore.1,
      Function.update_eq_self]
    exact h.next
  · rw [callPrev_update, callPrev_some (c := fun _ => some (i, a)) rfl, hprev, ← hbefore.2,
      Function.update_eq_self]
    exact h.prev

/-- A call makes its first store, and comes to have the others to make. -/
theorem Completed.firstStore (h : Completed node c K V) (hc : c j = some (i, .setPrev p n))
    (hx : Free node c (node i)) (hp : Free node c p) (hn : Free node c n) (hpx : p ≠ node i)
    (hnx : n ≠ node i) (hprev : K.prev (node i) = p) (hnext : K.next (node i) = n)
    (hseam : K.next p = node i) :
  Completed node (Function.update c j (some (i, .setNext p n))) (K.setPrev n p)
    (V.unlinkInit (node i))
  := by
  have hquiet := UnlinkPoint.pending_of_not_begun (a := .setPrev p n) id (node i)
  have hV : V.unlinkInit (node i) = (V.join p n).init (node i) := by
    rw [Links.unlinkInit, (h.sameAt hx).1, (h.sameAt hx).2, hprev, hnext]
  rw [hV]
  constructor
  · have hfirst := h.next.post (i := j) hp.next n
    have hquiet' : ∀ m, Function.update (callNext node c) j
        (Function.update (callNext node c j) p (some (K.next p, n))) m (node i) = none := by
      intro m
      by_cases hm : m = j
      · rw [hm, Function.update_self, Function.update_of_ne hpx.symm]
        exact hx.next j
      · rw [Function.update_of_ne hm]
        exact hx.next m
    have hsecond := hfirst.post (i := j) hquiet' (node i)
    rw [Function.update_self, Function.update_idem, callNext_some hc, hquiet.1, hseam,
      hnext] at hsecond
    rw [callNext_update]
    exact hsecond
  · have hstored := h.prev.update hn.prev p
    have hpost := hstored.post (i := j) hx.prev (node i)
    rw [callPrev_some hc, hquiet.2, Function.update_of_ne hnx.symm, hprev] at hpost
    rw [callPrev_update]
    exact hpost

end

/-! ### The calls -/

/-- What is known of a call that takes the node of `i` off the list of `j`, which holds `l`: the
nodes of `l₁` are before that node, and those of `l₂` behind it. -/
def UnlinkPoint.Fits (head node : ι → ν) (j i : ι) (l l₁ l₂ : List ι) : UnlinkPoint ν → Prop
  | prev => l = l₁ ++ i :: l₂
  | next p => l = l₁ ++ i :: l₂ ∧ p = (l₁.map node).getLastD (head j)
  | setPrev p n =>
      l = l₁ ++ i :: l₂ ∧ p = (l₁.map node).getLastD (head j) ∧ n = (l₂.map node).headD (head j)
  | setNext p n =>
      l = l₁ ++ l₂ ∧ p = (l₁.map node).getLastD (head j) ∧ n = (l₂.map node).headD (head j)
  | initNext p n => l = l₁ ++ l₂ ∧ p ≠ node i ∧ n ≠ node i
  | initPrev p => l = l₁ ++ l₂ ∧ p ≠ node i

/-- The lists hold the indexes `on` when the calls `c` have made their stores; behind the node that
the call on the list of `j` takes off are those of `rest j`. -/
structure Removals (head node : ι → ν) (K V : Links ν) (used : ι → Prop) (on rest : ι → List ι)
    (c : ι → Option (ι × UnlinkPoint ν)) : Prop where
  rings : Rings head node V used on
  completed : Completed node c K V
  fits : ∀ j i a, c j = some (i, a) → ∃ l₁, a.Fits head node j i (on j) l₁ (rest j)
  off : ∀ j i a, c j = some (i, a) → a.Begun → used i ∧ ∀ m, i ∉ on m
  one : ∀ j j' i a a', c j = some (i, a) → c j' = some (i, a') → a.Begun → a'.Begun → j = j'

/-- A call that has a store to make into the `next` field of a node: it is that of the node before
the one that is taken off, or of this one. -/
theorem UnlinkPoint.pendingNext_cases {o z : ν} (h : a.pendingNext x y = some (o, z)) :
  a.Begun ∧ ((∃ n, a = .setNext y n ∧ o = x) ∨ y = x)
  := by
  cases a with
  | setNext p n =>
      refine ⟨trivial, ?_⟩
      by_cases hx : y = x
      · exact .inr hx
      · rw [pendingNext, Function.update_of_ne hx] at h
        by_cases hp : y = p
        · subst hp
          rw [Function.update_self] at h
          cases h
          exact .inl ⟨_, rfl, rfl⟩
        · rw [Function.update_of_ne hp] at h
          cases h
  | initNext p n =>
      refine ⟨trivial, .inr ?_⟩
      by_contra hx
      rw [pendingNext, Function.update_of_ne hx] at h
      cases h
  | _ => cases h

theorem UnlinkPoint.pendingPrev_cases {o z : ν} (h : a.pendingPrev x y = some (o, z)) :
  a.Begun ∧ y = x
  := by
  have hx : ∀ {p : ν}, Function.update (fun _ => none) x (some (p, x)) y = some (o, z) → y = x := by
    intro p hp
    by_contra hne
    rw [Function.update_of_ne hne] at hp
    cases hp
  cases a with
  | setNext p n => exact ⟨trivial, hx h⟩
  | initNext p n => exact ⟨trivial, hx h⟩
  | initPrev p => exact ⟨trivial, hx h⟩
  | _ => cases h

theorem callPrev_cases {o z : ν} (hy : callPrev node c j y = some (o, z)) :
  ∃ i a, c j = some (i, a) ∧ a.Begun ∧ y = node i
  := by
  cases hc : c j with
  | none =>
      rw [callPrev_none hc] at hy
      cases hy
  | some x =>
      obtain ⟨i, a⟩ := x
      rw [callPrev_some hc] at hy
      exact ⟨i, a, rfl, UnlinkPoint.pendingPrev_cases hy⟩

/-- Only the node that is taken off has a `prev` field into which is to be stored. -/
theorem callPrev_eq_none (hy : ∀ j i a, c j = some (i, a) → a.Begun → y ≠ node i) (m : ι) :
  callPrev node c m y = none
  := by
  rw [Option.eq_none_iff_forall_ne_some]
  rintro ⟨o, z⟩ hs
  obtain ⟨i, a, hc, hb, hyi⟩ := callPrev_cases hs
  exact hy m i a hc hb hyi

omit [DecidableEq ν] in
/-- Another node is put at the front of the list, unless the call has still to store into the
head. -/
theorem UnlinkPoint.Fits.push (h : a.Fits head node j i l l₁ l₂) (ha : a.loaded ≠ some (head j))
    (m : ι) :
  a.Fits head node j i (m :: l) (m :: l₁) l₂
  := by
  have hlast : ∀ p, p = (l₁.map node).getLastD (head j) → p ≠ head j →
      p = ((m :: l₁).map node).getLastD (head j) := by
    rintro p rfl hp
    cases l₁ with
    | nil => exact absurd rfl hp
    | cons b l₁ => rfl
  cases a with
  | prev => exact congrArg _ h
  | next p => exact ⟨congrArg _ h.1, hlast p h.2 fun hp => ha (congrArg some hp)⟩
  | setPrev p n => exact ⟨congrArg _ h.1, hlast p h.2.1 fun hp => ha (congrArg some hp), h.2.2⟩
  | setNext p n => exact ⟨congrArg _ h.1, hlast p h.2.1 fun hp => ha (congrArg some hp), h.2.2⟩
  | initNext p n => exact ⟨congrArg _ h.1, h.2⟩
  | initPrev p => exact ⟨congrArg _ h.1, h.2⟩

/-- The value that is there before a store of a call is not the node itself. -/
theorem UnlinkPoint.Fits.ne_self (h : a.Fits head node j i l l₁ l₂) (hn : Names head node)
    (hi : i ∉ l) {o z : ν} :
  (a.pendingNext (node i) y = some (o, z) → o ≠ y) ∧
    (a.pendingPrev (node i) y = some (o, z) → o ≠ y)
  := by
  have hold : ∀ {p : ν}, p ≠ node i →
      Function.update (fun _ => none) (node i) (some (p, node i)) y = some (o, z) → o ≠ y := by
    intro p hp hs
    by_cases hy : y = node i
    · subst hy
      rw [Function.update_self] at hs
      cases hs
      exact hp
    · rw [Function.update_of_ne hy] at hs
      cases hs
  cases a with
  | setNext p n =>
      obtain ⟨rfl, rfl, rfl⟩ := h
      rw [List.mem_append, not_or] at hi
      refine ⟨fun hs => ?_, hold (hn.ends_ne hi.1).1⟩
      by_cases hy : y = node i
      · subst hy
        rw [pendingNext, Function.update_self] at hs
        cases hs
        exact (hn.ends_ne hi.2).2
      · rw [pendingNext, Function.update_of_ne hy] at hs
        by_cases hp : y = (l₁.map node).getLastD (head j)
        · subst hp
          rw [Function.update_self] at hs
          cases hs
          exact (hn.ends_ne hi.1).1.symm
        · rw [Function.update_of_ne hp] at hs
          cases hs
  | initNext p n => exact ⟨hold h.2.2, hold h.2.1⟩
  | initPrev p => exact ⟨nofun, hold h.2⟩
  | _ => exact ⟨nofun, nofun⟩

namespace Removals

variable (h : Removals head node K V used on rest c)
include h

/-- A store of a call into the `next` field of a node: the node is that before the one that is taken
off, which is the head of its list or on it, or it is the one that is taken off. -/
theorem callNext_cases {o z : ν} (hy : callNext node c j y = some (o, z)) :
  ∃ i a, c j = some (i, a) ∧ a.Begun ∧ (y = node i ∨
    (∃ n, a = .setNext y n) ∧ (y = head j ∨ ∃ m ∈ on j, y = node m))
  := by
  cases hc : c j with
  | none =>
      rw [callNext_none hc] at hy
      cases hy
  | some x =>
      obtain ⟨i, a⟩ := x
      rw [callNext_some hc] at hy
      obtain ⟨hb, ⟨n, rfl, -⟩ | hyi⟩ := UnlinkPoint.pendingNext_cases hy
      · obtain ⟨l₁, hl, hp, -⟩ := h.fits j i _ hc
        refine ⟨i, _, rfl, hb, .inr ⟨⟨n, rfl⟩, ?_⟩⟩
        have hmem := List.getLastD_mem_cons (l := l₁.map node) (a := head j)
        rw [← hp] at hmem
        rcases List.mem_cons.mp hmem with hy | hy
        · exact .inl hy
        · obtain ⟨m, hm, hy⟩ := List.mem_map.mp hy
          exact .inr ⟨m, hl ▸ List.mem_append_left _ hm, hy.symm⟩
      · exact ⟨i, a, rfl, hb, .inl hyi⟩

variable (hn : Names head node)
include hn

/-- A node on a list, or its head, is not one that a call has begun to take off. -/
theorem ne_held (hy : y ∈ head j :: (on j).map node) {a : UnlinkPoint ν} (hc : c m = some (i, a))
    (hb : a.Begun) :
  y ≠ node i
  := by
  rintro rfl
  exact (h.off m i a hc hb).2 j (hn.node_mem.mp hy)

/-- What is on a list whose call is not between its two stores into the list, and its head. -/
theorem free_of_mem (hc : ∀ i p n, c j ≠ some (i, .setNext p n))
    (hy : y ∈ head j :: (on j).map node) :
  Free node c y
  := by
  constructor
  · intro m
    rw [Option.eq_none_iff_forall_ne_some]
    rintro ⟨o, z⟩ hs
    obtain ⟨i, a, hcm, hb, hyi | ⟨⟨n, rfl⟩, hym⟩⟩ := h.callNext_cases hs
    · exact h.ne_held hn hy hcm hb hyi
    · have hmj : m ≠ j := by
        rintro rfl
        exact hc i y n hcm
      refine h.rings.disjoint hn hmj ?_ hy
      rcases hym with rfl | ⟨q, hq, rfl⟩
      · exact List.mem_cons_self
      · exact List.mem_cons_of_mem _ (List.mem_map_of_mem hq)
  · exact callPrev_eq_none fun m i a hcm hb => h.ne_held hn hy hcm hb

/-- The node of an index that is on no list, and that no call has begun to take off. -/
theorem free_of_off (hoff : ∀ m, i ∉ on m) (hi : ∀ j a, c j = some (i, a) → ¬ a.Begun) :
  Free node c (node i)
  := by
  have hne : ∀ j i' a, c j = some (i', a) → a.Begun → node i ≠ node i' := by
    intro j i' a hc hb heq
    cases hn.node_inj heq
    exact hi j a hc hb
  constructor
  · intro m
    rw [Option.eq_none_iff_forall_ne_some]
    rintro ⟨o, z⟩ hs
    obtain ⟨i', a, hc, hb, hyi | ⟨-, hh | ⟨q, hq, heq⟩⟩⟩ := h.callNext_cases hs
    · exact hne m i' a hc hb hyi
    · exact hn.disjoint m i hh.symm
    · cases hn.node_inj heq
      exact hoff m hq
  · exact callPrev_eq_none hne

/-- The head of a list whose call is not about to store into it. -/
theorem free_head (hc : ∀ i n, c j ≠ some (i, .setNext (head j) n)) :
  Free node c (head j)
  := by
  constructor
  · intro m
    rw [Option.eq_none_iff_forall_ne_some]
    rintro ⟨o, z⟩ hs
    obtain ⟨i, a, hcm, hb, hyi | ⟨⟨n, rfl⟩, hh | ⟨q, hq, heq⟩⟩⟩ := h.callNext_cases hs
    · exact hn.disjoint j i hyi
    · cases hn.head_inj hh
      exact hc i n hcm
    · exact hn.disjoint j q heq
  · exact callPrev_eq_none fun m i a _ _ => hn.disjoint j i

/-- A node that is linked to itself. -/
theorem free_of_alone (hy : K.Alone y) :
  Free node c y
  := by
  constructor
  · intro m
    rw [Option.eq_none_iff_forall_ne_some]
    rintro ⟨o, z⟩ hs
    obtain ⟨i, a, hc, hb, -⟩ := h.callNext_cases hs
    obtain ⟨l₁, hfits⟩ := h.fits m i a hc
    have hold := (h.completed.next.pending m y o z hs).1
    rw [callNext_some hc] at hs
    exact (hfits.ne_self hn ((h.off m i a hc hb).2 m)).1 hs (hold.symm.trans hy.1)
  · intro m
    rw [Option.eq_none_iff_forall_ne_some]
    rintro ⟨o, z⟩ hs
    obtain ⟨i, a, hc, hb, -⟩ := callPrev_cases hs
    obtain ⟨l₁, hfits⟩ := h.fits m i a hc
    have hold := (h.completed.prev.pending m y o z hs).1
    rw [callPrev_some hc] at hs
    exact (hfits.ne_self hn ((h.off m i a hc hb).2 m)).2 hs (hold.symm.trans hy.2)

/-- The node that a call takes off, before its first store, and those next to it. -/
theorem neighbours (hc : ∀ i p n, c j ≠ some (i, .setNext p n)) (hl : on j = l₁ ++ i :: l₂) :
  K.prev (node i) = (l₁.map node).getLastD (head j) ∧
    K.next (node i) = (l₂.map node).headD (head j)
  := by
  have hj : used j := by
    by_contra hj
    rw [h.rings.unused j hj] at hl
    simp at hl
  have hring := h.rings.ring j hj
  rw [hl, List.map_append, List.map_cons] at hring
  have hfree : Free node c (node i) := h.free_of_mem hn hc <| by
    rw [hl]
    exact hn.node_mem.mpr (by simp)
  obtain ⟨hnext, hprev⟩ := h.completed.sameAt hfree
  exact ⟨hprev.symm.trans hring.neighbours.1, hnext.symm.trans hring.neighbours.2⟩

/-- The first node of a list. -/
theorem first (hc : ∀ i p n, c j ≠ some (i, .setNext p n)) (hj : used j) :
  K.next (head j) = ((on j).map node).headD (head j)
  := by
  have hfree : Free node c (head j) := h.free_of_mem hn hc List.mem_cons_self
  exact (h.completed.sameAt hfree).1.symm.trans (h.rings.ring j hj).neighbours_head.1

omit hn in
/-- The lists are changed, where the calls have no store to make: those of calls are kept, or a node
is put at the front of one. -/
theorem other {V' : Links ν} {used' : ι → Prop} {on' : ι → List ι}
    (hrings : Rings head node V' used' on') (hcompleted : Completed node c K' V')
    (hused : ∀ i, used i → used' i)
    (hon : ∀ j i a, c j = some (i, a) →
      on' j = on j ∨ ∃ m, on' j = m :: on j ∧ a.loaded ≠ some (head j))
    (hoff : ∀ j i a, c j = some (i, a) → a.Begun → ∀ m, i ∉ on' m) :
  Removals head node K' V' used' on' rest c
  where
  rings := hrings
  completed := hcompleted
  fits j i a hc := by
    obtain ⟨l₁, hfits⟩ := h.fits j i a hc
    rcases hon j i a hc with heq | ⟨m, heq, ha⟩
    · exact ⟨l₁, heq ▸ hfits⟩
    · exact ⟨m :: l₁, heq ▸ hfits.push ha m⟩
  off j i a hc hb := ⟨hused i (h.off j i a hc hb).1, hoff j i a hc hb⟩
  one := h.one

/-! ### Loads and stores -/

variable [DecidableEq ι]

omit hn in
/-- The call on one list goes on. -/
theorem call {V' : Links ν} {on' : ι → List ι} {u : Option (ι × UnlinkPoint ν)}
    (hrings : Rings head node V' used on')
    (hcompleted : Completed node (Function.update c j u) K' V')
    (hon : ∀ m, m ≠ j → on' m = on m) (hmem : ∀ m q, q ∈ on' m → q ∈ on m)
    (hfits : ∀ i a, u = some (i, a) → ∃ l₁, a.Fits head node j i (on' j) l₁ (rest j))
    (hoff : ∀ i a, u = some (i, a) → a.Begun → used i ∧ (∀ m, i ∉ on' m) ∧
      ∀ m a', m ≠ j → c m = some (i, a') → ¬ a'.Begun) :
  Removals head node K' V' used on' rest (Function.update c j u)
  where
  rings := hrings
  completed := hcompleted
  fits m i a hm := by
    by_cases hmj : m = j
    · subst hmj
      rw [Function.update_self] at hm
      exact hfits i a hm
    · rw [Function.update_of_ne hmj] at hm
      rw [hon m hmj]
      exact h.fits m i a hm
  off m i a hm hb := by
    by_cases hmj : m = j
    · subst hmj
      rw [Function.update_self] at hm
      exact ⟨(hoff i a hm hb).1, (hoff i a hm hb).2.1⟩
    · rw [Function.update_of_ne hmj] at hm
      obtain ⟨hu, hnot⟩ := h.off m i a hm hb
      exact ⟨hu, fun q hq => hnot q (hmem q i hq)⟩
  one m m' i a a' hm hm' hb hb' := by
    by_cases hmj : m = j
    · by_cases hmj' : m' = j
      · rw [hmj, hmj']
      · rw [hmj, Function.update_self] at hm
        rw [Function.update_of_ne hmj'] at hm'
        exact absurd hb' ((hoff i a hm hb).2.2 m' a' hmj' hm')
    · rw [Function.update_of_ne hmj] at hm
      by_cases hmj' : m' = j
      · rw [hmj', Function.update_self] at hm'
        exact absurd hb ((hoff i a' hm' hb').2.2 m a hmj hm)
      · rw [Function.update_of_ne hmj'] at hm'
        exact h.one m m' i a a' hm hm' hb hb'

omit hn in
/-- What is behind the node that is taken off is of interest only while a call takes one off. -/
theorem setRest (hc : c j = none) (l : List ι) :
  Removals head node K V used on (Function.update rest j l) c
  := by
  refine { h with fits := fun m i' a hm => ?_ }
  have hmj : m ≠ j := by
    rintro rfl
    rw [hc] at hm
    cases hm
  rw [Function.update_of_ne hmj]
  exact h.fits m i' a hm

omit hn in
/-- A call that has not begun to store reads a link, or is made. -/
theorem reads (hc : ∀ i a, c j = some (i, a) → ¬ a.Begun) (ha : ¬ a.Begun)
    (hfits : a.Fits head node j i (on j) l₁ (rest j)) :
  Removals head node K V used on rest (Function.update c j (some (i, a)))
  := by
  refine h.call h.rings (h.completed.read hc ha) (fun _ _ => rfl) (fun _ _ => id) ?_ ?_
  · rintro _ _ ⟨⟩
    exact ⟨l₁, hfits⟩
  · rintro _ _ ⟨⟩ hb
    exact absurd hb ha

omit hn in
/-- A call begins to take a node off a list, with the ones behind it. -/
theorem begins (hc : c j = none) (hl : on j = l₁ ++ i :: rest j) :
  Removals head node K V used on rest (Function.update c j (some (i, .prev)))
  := by
  refine h.reads ?_ id hl
  intro i' a hj
  rw [hc] at hj
  cases hj

/-- A call reads `node->prev`. -/
theorem readPrev (hc : c j = some (i, .prev)) :
  Removals head node K V used on rest (Function.update c j (some (i, .next (K.prev (node i)))))
  := by
  obtain ⟨l₁, hl⟩ := h.fits j i _ hc
  have hnot : ∀ i p n, c j ≠ some (i, .setNext p n) := by
    rw [hc]
    nofun
  refine h.reads ?_ id ⟨hl, (h.neighbours hn hnot hl).1⟩
  intro i' a hj
  rw [hc] at hj
  cases hj
  exact id

/-- A call reads `node->next`. -/
theorem readNext (hc : c j = some (i, .next p)) :
  Removals head node K V used on rest (Function.update c j (some (i, .setPrev p (K.next (node i)))))
  := by
  obtain ⟨l₁, hl, hp⟩ := h.fits j i _ hc
  have hnot : ∀ i p n, c j ≠ some (i, .setNext p n) := by
    rw [hc]
    nofun
  refine h.reads ?_ id ⟨hl, hp, (h.neighbours hn hnot hl).2⟩
  intro i' a hj
  rw [hc] at hj
  cases hj
  exact id

/-- A call makes its first store: the node is on the list no more. -/
theorem firstStore (hc : c j = some (i, .setPrev p n)) :
  ∃ l₁, on j = l₁ ++ i :: rest j ∧
    Removals head node (K.setPrev n p) (V.unlinkInit (node i)) used
      (Function.update on j (l₁ ++ rest j)) rest (Function.update c j (some (i, .setNext p n)))
  := by
  obtain ⟨l₁, hl, rfl, rfl⟩ := h.fits j i _ hc
  have hnot : ∀ i p n, c j ≠ some (i, .setNext p n) := by
    rw [hc]
    nofun
  obtain ⟨hprev, hnext⟩ := h.neighbours hn hnot hl
  generalize hp : (l₁.map node).getLastD (head j) = p at *
  generalize hnx : ((rest j).map node).headD (head j) = n at *
  have hpmem : p ∈ head j :: (on j).map node := by
    have hmem := List.getLastD_mem_cons (l := l₁.map node) (a := head j)
    rw [hp, List.mem_cons] at hmem
    rw [hl, List.map_append, List.mem_cons, List.mem_append]
    exact hmem.imp_right .inl
  have hnmem : n ∈ head j :: (on j).map node := by
    have hmem := headD_mem (l := (rest j).map node) (h := head j)
    rw [hnx, List.mem_cons] at hmem
    rw [hl, List.map_append, List.map_cons, List.mem_cons, List.mem_append, List.mem_cons]
    exact hmem.imp_right fun hm => .inr (.inr hm)
  have hi : i ∈ on j := by
    rw [hl]
    simp
  have hfree {y : ν} (hy : y ∈ head j :: (on j).map node) : Free node c y :=
    h.free_of_mem hn hnot hy
  have hx := hfree (hn.node_mem.mpr hi)
  have hj : used j := by
    by_contra hj
    rw [h.rings.unused j hj] at hi
    cases hi
  have hring := h.rings.ring j hj
  rw [hl, List.map_append, List.map_cons] at hring
  have hseam : K.next p = node i := by
    rw [← (h.completed.sameAt (hfree hpmem)).1, ← hp]
    exact (hring.seam _ _).1
  have hnotin : i ∉ l₁ ++ rest j := by
    have hnodup := (List.nodup_cons.mp hring.nodup).2
    rw [List.nodup_middle, List.nodup_cons, ← List.map_append,
      List.mem_map_of_injective hn.node_inj] at hnodup
    exact hnodup.1
  have hpx : p ≠ node i := hp ▸ (hn.ends_ne fun hm => hnotin (List.mem_append_left _ hm)).1
  have hnx' : n ≠ node i := hnx ▸ (hn.ends_ne fun hm => hnotin (List.mem_append_right _ hm)).2
  have hcompleted := h.completed.firstStore hc hx (hfree hpmem) (hfree hnmem) hpx hnx' hprev hnext
    hseam
  have hmem : ∀ m q, q ∈ Function.update on j (l₁ ++ rest j) m → q ∈ on m := by
    intro m q hq
    by_cases hm : m = j
    · rw [hm, Function.update_self, List.mem_append] at hq
      rw [hm, hl, List.mem_append, List.mem_cons]
      exact hq.imp_right .inr
    · rwa [Function.update_of_ne hm] at hq
  refine ⟨l₁, hl, h.call (h.rings.unlinkInit hn hl) hcompleted
    (fun m hm => Function.update_of_ne hm _ _) hmem ?_ ?_⟩
  · rintro _ _ ⟨⟩
    rw [Function.update_self]
    exact ⟨l₁, rfl, hp.symm, hnx.symm⟩
  · rintro _ _ ⟨⟩ -
    refine ⟨h.rings.member i j hi, fun m hm => ?_, fun m a' hm hcm hb => ?_⟩
    · by_cases hmj : m = j
      · rw [hmj, Function.update_self] at hm
        exact hnotin hm
      · exact hmj (h.rings.one i m j (hmem m i hm) hi)
    · exact (h.off m i a' hcm hb).2 j hi

omit hn in
/-- A call that has begun goes on with the lists as they are. -/
theorem goes {u : Option (ι × UnlinkPoint ν)} (hc : c j = some (i, a)) (hb : a.Begun)
    (hcompleted : Completed node (Function.update c j u) K' V)
    (hfits : ∀ i' a', u = some (i', a') →
      i' = i ∧ ∃ l₁, a'.Fits head node j i (on j) l₁ (rest j)) :
  Removals head node K' V used on rest (Function.update c j u)
  := by
  refine h.call h.rings hcompleted (fun _ _ => rfl) (fun _ _ => id) ?_ ?_
  · intro i' a' hu
    obtain ⟨rfl, hfits⟩ := hfits i' a' hu
    exact hfits
  · intro i' a' hu _
    obtain ⟨rfl, -⟩ := hfits i' a' hu
    refine ⟨(h.off j i' a hc hb).1, (h.off j i' a hc hb).2, fun m a'' hm hcm hb' => ?_⟩
    exact hm (h.one m j i' a'' a hcm hc hb' hb)

/-- A call stores `prev->next = next`. -/
theorem secondStore (hc : c j = some (i, .setNext p n)) :
  Removals head node (K.setNext p n) V used on rest (Function.update c j (some (i, .initNext p n)))
  := by
  obtain ⟨l₁, hl, hp, hnx⟩ := h.fits j i _ hc
  have hoff := (h.off j i _ hc trivial).2 j
  rw [hl, List.mem_append, not_or] at hoff
  have hpx : p ≠ node i := hp ▸ (hn.ends_ne hoff.1).1
  have hnx' : n ≠ node i := hnx ▸ (hn.ends_ne hoff.2).2
  have hpending : callNext node c j p = some (node i, n) := by
    rw [callNext_some hc, UnlinkPoint.pendingNext, Function.update_of_ne hpx, Function.update_self]
  have hothers : ∀ m, m ≠ j → callNext node c m p = none := by
    intro m hm
    rw [Option.eq_none_iff_forall_ne_some]
    rintro ⟨o, z⟩ hs
    have hmem : p ∈ head j :: (on j).map node := by
      have hmem := List.getLastD_mem_cons (l := l₁.map node) (a := head j)
      rw [← hp, List.mem_cons] at hmem
      rw [hl, List.map_append, List.mem_cons, List.mem_append]
      exact hmem.imp_right .inl
    obtain ⟨i', a, hcm, hb, hyi | ⟨-, hym⟩⟩ := h.callNext_cases hs
    · exact h.ne_held hn hmem hcm hb hyi
    · refine h.rings.disjoint hn hm ?_ hmem
      rcases hym with rfl | ⟨q, hq, rfl⟩
      · exact List.mem_cons_self
      · exact List.mem_cons_of_mem _ (List.mem_map_of_mem hq)
  have hstored : Function.update (callNext node c j) p none =
      callNext node (fun _ => some (i, .initNext p n)) j := by
    rw [callNext_some hc, UnlinkPoint.pendingNext, Function.update_comm hpx.symm,
      Function.update_idem]
    exact congrArg (Function.update · _ _) (Function.update_eq_self p _)
  refine h.goes hc trivial ⟨?_, ?_⟩ ?_
  · rw [callNext_update, ← hstored]
    exact h.completed.next.store hpending hothers
  · have hsame : callPrev node (fun _ => some (i, .initNext p n)) j = callPrev node c j :=
      (callPrev_some hc).symm
    rw [callPrev_update, hsame, Function.update_eq_self]
    exact h.completed.prev
  · rintro _ _ ⟨⟩
    exact ⟨rfl, l₁, hl, hpx, hnx'⟩

omit hn [DecidableEq ι] in
/-- Only one call has begun to take a node off. -/
theorem others (hc : c j = some (i, a)) (hb : a.Begun) (hnode : Function.Injective node)
    (hm : m ≠ j) {o z : ν} :
  callPrev node c m (node i) ≠ some (o, z)
  := by
  intro hs
  obtain ⟨i', a', hcm, hb', hii⟩ := callPrev_cases hs
  cases hnode hii
  exact hm (h.one m j i a' a hcm hc hb' hb)

/-- A call stores `node->next = node`. -/
theorem thirdStore (hc : c j = some (i, .initNext p n)) :
  Removals head node (K.setNext (node i) (node i)) V used on rest
    (Function.update c j (some (i, .initPrev p)))
  := by
  obtain ⟨l₁, hl, hpx, hnx⟩ := h.fits j i _ hc
  have hpending : callNext node c j (node i) = some (n, node i) := by
    rw [callNext_some hc, UnlinkPoint.pendingNext, Function.update_self]
  have hothers : ∀ m, m ≠ j → callNext node c m (node i) = none := by
    intro m hm
    rw [Option.eq_none_iff_forall_ne_some]
    rintro ⟨o, z⟩ hs
    obtain ⟨i', a, hcm, hb, hyi | ⟨-, hh | ⟨q, hq, heq⟩⟩⟩ := h.callNext_cases hs
    · cases hn.node_inj hyi
      exact hm (h.one m j i a _ hcm hc hb trivial)
    · exact hn.disjoint m i hh.symm
    · cases hn.node_inj heq
      exact (h.off j i _ hc trivial).2 m hq
  have hstored : Function.update (callNext node c j) (node i) none =
      callNext node (fun _ => some (i, .initPrev p)) j := by
    rw [callNext_some hc, UnlinkPoint.pendingNext, Function.update_idem]
    exact Function.update_eq_self (node i) _
  refine h.goes hc trivial ⟨?_, ?_⟩ ?_
  · rw [callNext_update, ← hstored]
    exact h.completed.next.store hpending hothers
  · have hsame : callPrev node (fun _ => some (i, .initPrev p)) j = callPrev node c j :=
      (callPrev_some hc).symm
    rw [callPrev_update, hsame, Function.update_eq_self]
    exact h.completed.prev
  · rintro _ _ ⟨⟩
    exact ⟨rfl, l₁, hl, hpx⟩

/-- A call stores `node->prev = node`, and returns. -/
theorem lastStore (hc : c j = some (i, .initPrev p)) :
  Removals head node (K.setPrev (node i) (node i)) V used on rest (Function.update c j none)
  := by
  have hpending : callPrev node c j (node i) = some (p, node i) := by
    rw [callPrev_some hc, UnlinkPoint.pendingPrev, Function.update_self]
  have hothers : ∀ m, m ≠ j → callPrev node c m (node i) = none := by
    intro m hm
    rw [Option.eq_none_iff_forall_ne_some]
    rintro ⟨o, z⟩
    exact h.others hc trivial hn.node_inj hm
  have hstored : Function.update (callPrev node c j) (node i) none =
      callPrev node (fun _ => none) j := by
    rw [callPrev_some hc, UnlinkPoint.pendingPrev, Function.update_idem]
    exact Function.update_eq_self (node i) _
  refine h.goes hc trivial ⟨?_, ?_⟩ nofun
  · have hsame : callNext node (fun _ => none) j = callNext node c j := (callNext_some hc).symm
    rw [callNext_update, hsame, Function.update_eq_self]
    exact h.completed.next
  · rw [callPrev_update, ← hstored]
    exact h.completed.prev.store hpending hothers

end Removals

end Links
