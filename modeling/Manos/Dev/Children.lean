import Manos.Dev.Walk
import Manos.Lib.Contiguous

/-!
# Children in a static namespace

The children of an entry, in any table in which siblings stand together.  `WalkDown` gives the
first one, and `WalkNext` gives the next one until there is none; the loops over the entries of
a directory are runs over its children.
-/

namespace Dev

open Exec

variable {σ : Type} {ns T : List StaticNS} {cs : List StaticNS} {e f : StaticNS} {a i n : ℕ}
  {p px : Portal}

/-! ### Tables -/

/--
A static namespace without its sentinel: the entries are numbered, parents come before their
children, and siblings stand together.
-/
structure Ordered (ns : List StaticNS) : Prop where
  static : ∀ e ∈ ns, e.crumb.isStatic
  self : ∀ i (h : i < ns.length), ns[i].crumb.selfIdx = i
  root : ∀ h : 0 < ns.length, 0xfff ≤ ns[0].crumb.parentIdx
  parent : ∀ i (h : i < ns.length), 0 < i →
    ns[i].crumb.parentIdx < i ∧ ns[i].crumb.parentIdx < 0xfff
  together : ∀ i j k (hij : i < j) (hjk : j < k) (hk : k < ns.length),
    ns[i].crumb.parentIdx = ns[k].crumb.parentIdx → ns[j].crumb.parentIdx = ns[i].crumb.parentIdx

/-- Whether an entry is a child of the entry `a`. -/
def isChild (a : ℕ) (e : StaticNS) : Bool := e.crumb.parentIdx = a

/-- The children of the entry `a`, in their order. -/
def children (ns : List StaticNS) (a : ℕ) : List StaticNS := ns.filter (isChild a)

/-- The entry `a` has a child. -/
def HasChild (ns : List StaticNS) (a : ℕ) : Prop :=
  ∃ j, ∃ hj : j < ns.length, 0 < j ∧ ns[j].crumb.parentIdx = a

/-- An entry is found in the table at its own index. -/
theorem Ordered.getElem?_selfIdx (h : Ordered ns) (he : e ∈ ns) :
  (ns ++ [sentinel])[e.crumb.selfIdx]? = some e
  := by
  obtain ⟨i, hi, rfl⟩ := List.getElem_of_mem he
  rw [h.self i hi, List.getElem?_append_left hi, List.getElem?_eq_getElem hi]

/-- From the index `n` on the table has the entries `cs`, which have the parent `a`. -/
structure Adjacent (T : List StaticNS) (a n : ℕ) (cs : List StaticNS) : Prop where
  entry : ∀ k (h : k < cs.length), T[n + k]? = some cs[k]
  self : ∀ k (h : k < cs.length), cs[k].crumb.selfIdx = n + k
  static : ∀ e ∈ cs, e.crumb.isStatic
  parent : ∀ e ∈ cs, e.crumb.parentIdx = a

/-- From the index `n` on the table has the siblings `cs` with the parent `a`, and no others. -/
structure Siblings (T : List StaticNS) (a n : ℕ) (cs : List StaticNS) : Prop extends
    Adjacent T a n cs where
  last : ∃ f, T[n + cs.length]? = some f ∧ f.crumb.parentIdx ≠ a

theorem Adjacent.head (h : Adjacent T a n (e :: cs)) :
  T[n]? = some e ∧ e.crumb.selfIdx = n
  := ⟨h.entry 0 (Nat.zero_lt_succ _), h.self 0 (Nat.zero_lt_succ _)⟩

/-- An index has 16 bits. -/
theorem Crumb.selfIdx_le (c : Crumb) :
  c.selfIdx ≤ 0xffff
  := Nat.and_le_right

/-- There are no more siblings than indices. -/
theorem Adjacent.length_le (h : Adjacent T a n cs) :
  cs.length ≤ entryBound
  := by
  cases hcs : cs.length with
  | zero => apply Nat.zero_le
  | succ k =>
      have hk : k < cs.length := hcs ▸ Nat.lt_succ_self k
      have hself := h.self k hk
      have hle := Crumb.selfIdx_le cs[k].crumb
      rw [entryBound]
      omega

/-- The entries behind the first one. -/
theorem Adjacent.tail (h : Adjacent T a n (e :: cs)) :
  Adjacent T a (n + 1) cs
  := by
  constructor
  · intro k hk
    rw [Nat.add_right_comm, Nat.add_assoc]
    apply h.entry (k + 1) (Nat.succ_lt_succ hk)
  · intro k hk
    rw [Nat.add_right_comm, Nat.add_assoc]
    apply h.self (k + 1) (Nat.succ_lt_succ hk)
  · intro x hx
    apply h.static x (List.mem_cons_of_mem e hx)
  · intro x hx
    apply h.parent x (List.mem_cons_of_mem e hx)

theorem Siblings.tail (h : Siblings T a n (e :: cs)) :
  Siblings T a (n + 1) cs
  := by
  refine ⟨h.toAdjacent.tail, ?_⟩
  rw [Nat.add_right_comm, Nat.add_assoc]
  apply h.last

/-- The children of an entry of an ordered namespace are siblings in its table. -/
theorem Ordered.siblings (h : Ordered ns) (ha : a < 0xfff) :
  ∃ n, Siblings (ns ++ [sentinel]) a n (children ns a) ∧
    ∀ j < n, ∃ x ∈ ns, (ns ++ [sentinel])[j]? = some x ∧ x.crumb.parentIdx ≠ a
  := by
  have hcut : ns.Contiguous (isChild a) := by
    intro i j k hij hjk hk hi hk'
    simp only [isChild, decide_eq_true_eq] at hi hk' ⊢
    rw [← hi]
    apply h.together i j k hij hjk hk (hi.trans hk'.symm)
  obtain ⟨pre, post, hns, hpre, hpost⟩ := hcut.cut
  have hT : ns ++ [sentinel] = pre ++ (children ns a ++ (post ++ [sentinel])) := by
    conv_lhs => rw [hns]
    simp only [List.append_assoc, children]
  have hmem : ∀ x ∈ children ns a, x ∈ ns ∧ x.crumb.parentIdx = a := by
    intro x hx
    obtain ⟨hx, hxa⟩ := List.mem_filter.mp hx
    exact ⟨hx, of_decide_eq_true hxa⟩
  have hentry : ∀ k (hk : k < (children ns a).length),
      (ns ++ [sentinel])[pre.length + k]? = some (children ns a)[k] := by
    intro k hk
    rw [hT, List.getElem?_append_right (Nat.le_add_right _ _), Nat.add_sub_cancel_left,
      List.getElem?_append_left hk, List.getElem?_eq_getElem hk]
  have hlen : pre.length + (children ns a).length ≤ ns.length := by
    have := congrArg List.length hns
    rw [List.length_append, List.length_append] at this
    rw [this, children]
    omega
  refine ⟨pre.length, ⟨⟨hentry, ?_, fun x hx => h.static x (hmem x hx).1,
    fun x hx => (hmem x hx).2⟩, ?_⟩, ?_⟩
  · intro k hk
    have hlt : pre.length + k < ns.length := by omega
    have hx := hentry k hk
    rw [List.getElem?_append_left hlt, List.getElem?_eq_getElem hlt, Option.some.injEq] at hx
    rw [← hx]
    apply h.self
  · rw [hT, List.getElem?_append_right (Nat.le_add_right _ _), Nat.add_sub_cancel_left,
      List.getElem?_append_right (Nat.le_refl _), Nat.sub_self]
    cases post with
    | nil => exact ⟨sentinel, rfl, fun hs => Nat.lt_irrefl _ (hs ▸ ha)⟩
    | cons f post => exact ⟨f, rfl, of_decide_eq_false (hpost f List.mem_cons_self)⟩
  · intro j hj
    refine ⟨pre[j], ?_, ?_, of_decide_eq_false (hpre _ (List.getElem_mem hj))⟩
    · rw [hns, List.append_assoc]
      exact List.mem_append_left _ (List.getElem_mem hj)
    · rw [hT, List.getElem?_append_left hj, List.getElem?_eq_getElem hj]

/-! ### Node information -/

theorem entryAt_of_getElem? (h : T[i]? = some e) (s : σ) :
  entryAt T i s = .done e s
  := by
  rw [entryAt, h]
  rfl

theorem info_self (hp : p.crumb.isStatic) (h : T[p.crumb.selfIdx]? = some e) (s : σ) :
  getNodeInfoStaticNS p T .self s = .done (some (mkNodeInfo p e)) s
  := by
  rw [getNodeInfoStaticNS, bind_done (assert_pos hp _ s)]
  apply (bind_done (entryAt_of_getElem? h s)).trans
  rfl

theorem info_up (hp : p.crumb.isStatic)
    (h : T[if p.crumb.selfIdx ≠ 0 then p.crumb.parentIdx else p.crumb.selfIdx]? = some e) (s : σ) :
  getNodeInfoStaticNS p T .up s = .done (some (mkNodeInfo p e)) s
  := by
  rw [getNodeInfoStaticNS, bind_done (assert_pos hp _ s)]
  apply (bind_done (entryAt_of_getElem? h s)).trans
  rfl

/-- The entry behind `e`, if it has the same parent. -/
theorem info_behind (hp : p.crumb = e.crumb) (hstatic : e.crumb.isStatic)
    (hself : e.crumb.selfIdx = n) (hf : T[n + 1]? = some f) (s : σ) :
  getNodeInfoStaticNS p T .next s =
    .done (if e.crumb.parentIdx ≠ f.crumb.parentIdx then none else some (mkNodeInfo p f)) s
  := by
  rw [getNodeInfoStaticNS, bind_done (assert_pos (hp ▸ hstatic) _ s), hp, hself]
  apply (bind_done (entryAt_of_getElem? hf s)).trans
  split
  · rfl
  · rfl

/-- Behind a sibling there is the next one, or none. -/
theorem info_next (h : Siblings T a n (e :: cs)) (hp : p.crumb = e.crumb) (s : σ) :
  getNodeInfoStaticNS p T .next s = .done (cs.head?.map (mkNodeInfo p)) s
  := by
  have hstatic := h.static e List.mem_cons_self
  have hparent := h.parent e List.mem_cons_self
  cases cs with
  | nil =>
      obtain ⟨f, hf, hne⟩ := h.last
      rw [info_behind hp hstatic h.head.2 hf, if_pos (hparent ▸ hne.symm)]
      rfl
  | cons f cs =>
      have heq : f.crumb.parentIdx = a := h.parent f (by simp)
      rw [info_behind hp hstatic h.head.2 h.tail.head.1, if_neg (by rw [hparent, heq]; simp)]
      rfl

/-- The scan of `WalkDown` passes entries with other parents. -/
theorem firstChild_skip (hi : i ≤ n)
    (h : ∀ j, i ≤ j → j < n → ∃ x, T[j]? = some x ∧ x.crumb.parentIdx ≠ a ∧
      x.crumb.isSentinel = false) :
  (firstChild a (T.drop i) : Exec σ _) = firstChild a (T.drop n)
  := by
  induction n, hi using Nat.le_induction with
  | base => rfl
  | succ n hin ih =>
      obtain ⟨x, hx, hne, hs⟩ := h n hin (Nat.lt_succ_self n)
      rw [ih fun j hij hjn => h j hij (Nat.lt_succ_of_lt hjn)]
      obtain ⟨hn, rfl⟩ := List.getElem?_eq_some_iff.mp hx
      rw [List.drop_eq_getElem_cons hn, firstChild, if_neg hne, hs, if_neg Bool.false_ne_true]

/-- `WalkDown` gives the first child. -/
theorem info_down (hget : T[n]? = some e) (hparent : e.crumb.parentIdx = a)
    (hp : p.crumb.isStatic) (hself : p.crumb.selfIdx = a) (hdir : p.crumb.isDir) (hn : a ≤ n)
    (hskip : ∀ j, a ≤ j → j < n → ∃ x, T[j]? = some x ∧ x.crumb.parentIdx ≠ a ∧
      x.crumb.isSentinel = false) (s : σ) :
  getNodeInfoStaticNS p T .down s = .done (some (mkNodeInfo p e)) s
  := by
  obtain ⟨hlt, rfl⟩ := List.getElem?_eq_some_iff.mp hget
  have hfirst : firstChild a (T.drop a) s = .done (some T[n]) s := by
    rw [firstChild_skip hn hskip, List.drop_eq_getElem_cons hlt, firstChild]
    exact congrFun (if_pos hparent) s
  rw [getNodeInfoStaticNS, bind_done (assert_pos hp _ s), hdir, hself]
  simp only [Bool.not_true, Bool.false_eq_true, if_false]
  rw [bind_done hfirst]
  rfl

/-- An entry that is taken for the sentinel has the last index. -/
theorem selfIdx_of_isSentinel (h : e.crumb.isSentinel = true) :
  e.crumb.selfIdx = 0xffff
  := by
  have hfid : e.crumb.fid = staticNSSentinel := (of_decide_eq_true h).2
  rw [Crumb.selfIdx, hfid]
  rfl

/-- In an ordered namespace `WalkDown` finds the first child. -/
theorem Ordered.info_down (h : Ordered ns) (hp : p.crumb.isStatic) (hself : p.crumb.selfIdx = a)
    (hdir : p.crumb.isDir) (hchild : HasChild ns a) :
  ∃ n e cs, children ns a = e :: cs ∧ Siblings (ns ++ [sentinel]) a n (e :: cs) ∧
    ∀ σ (s : σ), getNodeInfoStaticNS p (ns ++ [sentinel]) .down s = .done (some (mkNodeInfo p e)) s
  := by
  obtain ⟨i, hi, hpos, hia⟩ := hchild
  have ha : a < 0xfff := hia ▸ (h.parent i hi hpos).2
  have hmem : ns[i] ∈ children ns a :=
    List.mem_filter.mpr ⟨List.getElem_mem hi, decide_eq_true hia⟩
  obtain ⟨e, cs, hcs⟩ := List.exists_cons_of_ne_nil (List.ne_nil_of_mem hmem)
  obtain ⟨n, hsib, hpre⟩ := h.siblings ha
  rw [hcs] at hsib
  refine ⟨n, e, cs, hcs, hsib, fun σ s => ?_⟩
  have hmem : e ∈ ns := (List.mem_filter.mp (hcs ▸ List.mem_cons_self)).1
  have hparent := hsib.parent e List.mem_cons_self
  have hen := hsib.head.2
  obtain ⟨k, hk, rfl⟩ := List.getElem_of_mem hmem
  rw [h.self k hk] at hen
  subst hen
  -- the root is nobody's child, and the others come behind their parents
  have hpos : 0 < k := by
    by_contra h0
    obtain rfl : k = 0 := by omega
    have := h.root hk
    omega
  have hlt : a < k := hparent ▸ (h.parent k hk hpos).1
  refine Dev.info_down hsib.head.1 hparent hp hself hdir (Nat.le_of_lt hlt) (fun j _ hj => ?_) s
  obtain ⟨x, hx, hget, hne⟩ := hpre j hj
  refine ⟨x, hget, hne, Bool.eq_false_iff.mpr fun hs => ?_⟩
  have hlast := selfIdx_of_isSentinel hs
  have hjl : j < ns.length := hj.trans hk
  rw [List.getElem?_append_left hjl, List.getElem?_eq_getElem hjl, Option.some.injEq] at hget
  have hjself := h.self j hjl
  have hkself := h.self k hk
  have hle := Crumb.selfIdx_le ns[k].crumb
  rw [hget] at hjself
  omega

/-! ### Loops over the entries of a directory -/

/-- Whether an entry has a name. -/
def hasName (name : Name) (e : StaticNS) : Bool := name = e.name

/-- The function that looks at a table for a portal. -/
def tableFn (T : List StaticNS) : GetNodeInfoFn := fun p d => getNodeInfoStaticNS p T d

/--
The search for a name among siblings ends at the first one with the name, or without it when
there is none.
-/
theorem searchLoop_eq (name : Name) (h : Siblings T a n cs) {k : ℕ} (hk : cs.length ≤ k)
    (px : Portal) (ni : NodeInfo) (H : Heap) :
  Returns H (searchLoop (tableFn T) name k px ni (cs.head?.map (mkNodeInfo px))) fun r H' =>
    H' = H ∧ match cs.find? (hasName name) with
      | some f => r.1 = { px with crumb := f.crumb } ∧ r.2.2 = true
      | none => r.2.2 = false
  := by
  induction cs generalizing n k px ni with
  | nil =>
      cases k with
      | zero => exact .pure ⟨rfl, rfl⟩
      | succ k => exact .pure ⟨rfl, rfl⟩
  | cons e cs ih =>
      obtain ⟨k, rfl⟩ := Nat.exists_eq_succ_of_ne_zero (Nat.ne_zero_of_lt hk)
      rw [List.head?_cons, Option.map_some, searchLoop]
      by_cases hname : name = e.name
      · rw [List.find?_cons_of_pos (by simpa [hasName] using hname)]
        refine ⟨_, _, congrFun (if_pos hname) H, ?_⟩
        exact ⟨rfl, rfl, rfl⟩
      · rw [List.find?_cons_of_neg (by simpa [hasName] using hname)]
        have hnext := info_next (p := { px with crumb := e.crumb }) h rfl H
        have hrest := ih h.tail (Nat.le_of_succ_le_succ hk) { px with crumb := e.crumb }
          (mkNodeInfo px e)
        obtain ⟨r, H', hr, hQ⟩ := hrest
        exact ⟨r, H', (congrFun (if_neg hname) H).trans ((bind_done hnext).trans hr), hQ⟩

end Dev
