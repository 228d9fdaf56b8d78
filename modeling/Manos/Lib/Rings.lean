import Mathlib.Logic.Function.Basic
import Manos.Lib.Ring

/-!
# Families of circular lists

Every index `i` has a list with the head `head i`, and a node `node i` of its own that is on at
most one of the lists.  The operations on one list leave the other ones as they are.
-/

namespace Links

variable {ι ν : Type} {head node : ι → ν} {K K' : Links ν} {used : ι → Prop} {on : ι → List ι}
variable {i j : ι} {l l₁ l₂ : List ι}

/-! ### One list -/

theorem Alone.frame {x : ν} (ha : K.Alone x) (hs : K.SameAt K' x) :
  K'.Alone x
  := ⟨hs.1.trans ha.1, hs.2.trans ha.2⟩

/-- What is found on a list is the head, or on the list. -/
theorem Ring.mem_of_reaches {h x : ν} {l : List ν} (hr : K.Ring h l) (hx : K.Reaches h x) :
  x ∈ h :: l
  := by
  induction hx with
  | refl => exact List.mem_cons_self
  | @tail a b _ hab ih =>
      rw [← hab]
      rcases List.mem_cons.mp ih with rfl | ha
      · rw [hr.neighbours_head.1]
        exact headD_mem
      · obtain ⟨l₁, l₂, rfl⟩ := List.append_of_mem ha
        rw [hr.neighbours.2]
        have := headD_mem (l := l₂) (h := h)
        simp only [List.mem_cons, List.mem_append] at this ⊢
        tauto

/-- What is on a list is found on it. -/
theorem Ring.reaches {h x : ν} {l₁ l₂ : List ν} (hr : K.Ring h (l₁ ++ l₂)) (hx : x ∈ h :: l₁) :
  K.Reaches h x
  := by
  induction l₁ using List.reverseRecOn generalizing l₂ x with
  | nil =>
      rw [List.mem_singleton.mp hx]
      exact Relation.ReflTransGen.refl
  | append_singleton l₁ a ih =>
      rw [List.append_assoc, List.singleton_append] at hr
      rw [← List.cons_append, List.mem_append, List.mem_singleton] at hx
      rcases hx with hx | rfl
      · exact ih hr hx
      · have hlast : K.Reaches h (l₁.getLastD h) := ih hr List.getLastD_mem_cons
        exact Relation.ReflTransGen.tail hlast (hr.seam l₁ (x :: l₂)).1

/-! ### Families -/

/-- The nodes of the family are distinct. -/
structure Names (head node : ι → ν) : Prop where
  head_inj : Function.Injective head
  node_inj : Function.Injective node
  disjoint : ∀ i j, head i ≠ node j

/-- The lists of the indexes that are used hold the nodes of the indexes `on`, and a node that is
on no list is linked to itself. -/
structure Rings (head node : ι → ν) (K : Links ν) (used : ι → Prop) (on : ι → List ι) : Prop where
  ring : ∀ i, used i → K.Ring (head i) ((on i).map node)
  unused : ∀ i, ¬ used i → on i = []
  one : ∀ i j j', i ∈ on j → i ∈ on j' → j = j'
  member : ∀ i j, i ∈ on j → used i
  alone : ∀ i, used i → (∀ j, i ∉ on j) → K.Alone (node i)

theorem Names.node_mem (hn : Names head node) :
  node i ∈ head j :: l.map node ↔ i ∈ l
  := by
  rw [List.mem_cons, List.mem_map_of_injective hn.node_inj]
  constructor
  · rintro (h | h)
    · exact absurd h.symm (hn.disjoint j i)
    · exact h
  · exact .inr

theorem Names.head_mem (hn : Names head node) :
  head i ∈ head j :: l.map node ↔ i = j
  := by
  rw [List.mem_cons, List.mem_map]
  constructor
  · rintro (h | ⟨a, -, h⟩)
    · exact hn.head_inj h
    · exact absurd h.symm (hn.disjoint i a)
  · rintro rfl
    exact .inl rfl

/-- A node that is not of a list is neither its last nor its first one, and not its head. -/
theorem Names.ends_ne (hn : Names head node) (hi : i ∉ l) :
  (l.map node).getLastD (head j) ≠ node i ∧ (l.map node).headD (head j) ≠ node i
  := by
  have hne : ∀ y ∈ head j :: l.map node, y ≠ node i := by
    rintro y hy rfl
    exact hi (hn.node_mem.mp hy)
  exact ⟨hne _ List.getLastD_mem_cons, hne _ headD_mem⟩

namespace Rings

/-- The lists have no nodes in common. -/
theorem disjoint (hn : Names head node) (h : Rings head node K used on) (hij : i ≠ j) {y : ν}
    (hy : y ∈ head i :: (on i).map node) :
  y ∉ head j :: (on j).map node
  := by
  intro hy'
  rcases List.mem_cons.mp hy with rfl | hmem
  · exact hij (hn.head_mem.mp hy')
  · obtain ⟨a, ha, rfl⟩ := List.mem_map.mp hmem
    exact hij (h.one a i j ha (hn.node_mem.mp hy'))

/-- A node is found on the list of an index exactly when it is on it. -/
theorem reaches_iff (hn : Names head node) (h : Rings head node K used on) (hj : used j) :
  K.Reaches (head j) (node i) ↔ i ∈ on j
  := by
  rw [← hn.node_mem (j := j)]
  constructor
  · exact (h.ring j hj).mem_of_reaches
  · have hring := h.ring j hj
    rw [← List.append_nil ((on j).map node)] at hring
    exact hring.reaches

/-- A list whose head is linked to itself is empty. -/
theorem nil_of_alone (hn : Names head node) (h : Rings head node K used on)
    (hi : K.Alone (head i)) :
  on i = []
  := by
  by_cases hu : used i
  · have hnext := (h.ring i hu).neighbours_head.1
    rw [hi.1] at hnext
    cases hl : on i with
    | nil => rfl
    | cons a l =>
        rw [hl] at hnext
        exact absurd hnext (hn.disjoint i a)
  · exact h.unused i hu

/-- A node that is linked to itself is on no list. -/
theorem notMem_of_alone (hn : Names head node) (h : Rings head node K used on)
    (hi : K.Alone (node i)) :
  ∀ m, i ∉ on m
  := by
  intro m hmem
  by_cases hm : used m
  · obtain ⟨l₁, l₂, hl⟩ := List.append_of_mem hmem
    have hring := h.ring m hm
    rw [hl, List.map_append, List.map_cons] at hring
    have hnext := hring.neighbours.2
    rw [hi.1] at hnext
    have hnodup := hring.nodup
    have hmem' := headD_mem (l := l₂.map node) (h := head m)
    rw [← hnext] at hmem'
    rw [List.nodup_cons, List.nodup_middle, List.nodup_cons] at hnodup
    rcases List.mem_cons.mp hmem' with hh | hh
    · exact hn.disjoint m i hh.symm
    · exact hnodup.2.1 (List.mem_append_right _ hh)
  · rw [h.unused m hm] at hmem
    cases hmem

variable [DecidableEq ι] [DecidableEq ν]

/-- A node that is on no list is put on one. -/
theorem addAfter (hn : Names head node) (h : Rings head node K used on) (hi : used i)
    (hj : used j) (hnot : ∀ m, i ∉ on m) :
  Rings head node (K.addAfter (node i) (head j)) used (Function.update on j (i :: on j))
  := by
  have hx : node i ∉ head j :: (on j).map node := by
    rw [hn.node_mem]
    exact hnot j
  have hmem : ∀ a m, a ∈ Function.update on j (i :: on j) m ↔ a ∈ on m ∨ (a = i ∧ m = j) := by
    intro a m
    by_cases hm : m = j
    · subst hm
      rw [Function.update_self, List.mem_cons]
      tauto
    · rw [Function.update_of_ne hm]
      tauto
  constructor
  · intro m hm
    by_cases hmj : m = j
    · rw [hmj, Function.update_self]
      exact (h.ring j hj).addAfter hx
    · rw [Function.update_of_ne hmj]
      refine (h.ring m hm).frame ?_
      intro y hy
      apply (h.ring j hj).sameAt_addAfter (h.disjoint hn hmj hy)
      rintro rfl
      rw [hn.node_mem] at hy
      exact hnot m hy
  · intro m hm
    rw [Function.update_of_ne]
    · exact h.unused m hm
    · rintro rfl
      exact hm hj
  · intro a m m' ha ha'
    rcases (hmem a m).mp ha with ha | ⟨hai, hm⟩
    · rcases (hmem a m').mp ha' with ha' | ⟨hai, -⟩
      · exact h.one a m m' ha ha'
      · rw [hai] at ha
        exact absurd ha (hnot m)
    · rcases (hmem a m').mp ha' with ha' | ⟨-, hm'⟩
      · rw [hai] at ha'
        exact absurd ha' (hnot m')
      · rw [hm, hm']
  · intro a m ha
    rcases (hmem a m).mp ha with ha | ⟨rfl, -⟩
    · exact h.member a m ha
    · exact hi
  · intro a ha hno
    have hno' : ∀ m, a ∉ on m := fun m hm => hno m ((hmem a m).mpr (.inl hm))
    have hai : a ≠ i := fun hai => hno j ((hmem a j).mpr (.inr ⟨hai, rfl⟩))
    refine (h.alone a ha hno').frame ((h.ring j hj).sameAt_addAfter ?_ ?_)
    · rw [hn.node_mem]
      exact hno' j
    · exact fun hnode => hai (hn.node_inj hnode)

/-- A node is taken off a list. -/
theorem unlinkInit (hn : Names head node) (h : Rings head node K used on) 
    (hl : on j = l₁ ++ i :: l₂) :
  Rings head node (K.unlinkInit (node i)) used (Function.update on j (l₁ ++ l₂))
  := by
  have hj : used j := by
    by_contra hj
    rw [h.unused j hj] at hl
    simp at hl
  have hring : K.Ring (head j) (l₁.map node ++ node i :: l₂.map node) := by
    have hring := h.ring j hj
    rwa [hl, List.map_append, List.map_cons] at hring
  have hil : i ∉ l₁ ++ l₂ := by
    have hnodup := (List.nodup_cons.mp hring.nodup).2
    rw [List.nodup_middle, List.nodup_cons, ← List.map_append,
      List.mem_map_of_injective hn.node_inj] at hnodup
    exact hnodup.1
  have hmem : ∀ a m, a ∈ Function.update on j (l₁ ++ l₂) m ↔ a ∈ on m ∧ a ≠ i := by
    intro a m
    by_cases hm : m = j
    · subst hm
      rw [Function.update_self, hl, List.mem_append, List.mem_append, List.mem_cons]
      constructor
      · intro ha
        exact ⟨ha.imp_right .inr, fun hai => hil (hai ▸ List.mem_append.mpr ha)⟩
      · rintro ⟨ha | ha | ha, hai⟩
        · exact .inl ha
        · exact absurd ha hai
        · exact .inr ha
    · rw [Function.update_of_ne hm]
      constructor
      · intro ha
        refine ⟨ha, ?_⟩
        rintro rfl
        exact hm (h.one a m j ha (by rw [hl]; simp))
      · exact And.left
  have hsame : ∀ y, y ∉ head j :: (on j).map node → K.SameAt (K.unlinkInit (node i)) y := by
    intro y hy
    rw [hl, List.map_append, List.map_cons] at hy
    exact Ring.sameAt_unlinkInit hring hy
  constructor
  · intro m hm
    by_cases hmj : m = j
    · rw [hmj, Function.update_self, List.map_append]
      exact hring.unlinkInit
    · rw [Function.update_of_ne hmj]
      exact (h.ring m hm).frame fun y hy => hsame y (h.disjoint hn hmj hy)
  · intro m hm
    rw [Function.update_of_ne]
    · exact h.unused m hm
    · rintro rfl
      exact hm hj
  · intro a m m' ha ha'
    exact h.one a m m' ((hmem a m).mp ha).1 ((hmem a m').mp ha').1
  · intro a m ha
    exact h.member a m ((hmem a m).mp ha).1
  · intro a ha hno
    by_cases hai : a = i
    · rw [hai]
      exact alone_unlinkInit
    · have hno' : ∀ m, a ∉ on m := fun m hm => hno m ((hmem a m).mpr ⟨hm, hai⟩)
      refine (h.alone a ha hno').frame (hsame _ ?_)
      rw [hn.node_mem]
      exact hno' j

/-- The list and the node of an index are set up. -/
theorem init (hn : Names head node) (h : Rings head node K used on) (hl : on i = [])
    (hnot : ∀ m, i ∉ on m) :
  Rings head node ((K.init (head i)).init (node i)) (fun m => m = i ∨ used m) on
  := by
  have hsame : ∀ y, y ≠ head i → y ≠ node i →
      K.SameAt ((K.init (head i)).init (node i)) y := by
    intro y hy hy'
    have h₁ := sameAt_init (K := K) hy
    have h₂ := sameAt_init (K := K.init (head i)) hy'
    exact ⟨h₂.1.trans h₁.1, h₂.2.trans h₁.2⟩
  have hhead : ((K.init (head i)).init (node i)).Alone (head i) :=
    (alone_init (K := K)).frame (sameAt_init (hn.disjoint i i))
  constructor
  · intro m hm
    by_cases hmi : m = i
    · rw [hmi, hl]
      exact hhead.ring
    · refine (h.ring m (hm.resolve_left hmi)).frame ?_
      intro y hy
      apply hsame
      · rintro rfl
        exact hmi (hn.head_mem.mp hy).symm
      · rintro rfl
        exact hnot m (hn.node_mem.mp hy)
  · intro m hm
    exact h.unused m fun hu => hm (.inr hu)
  · exact h.one
  · intro a m ha
    exact .inr (h.member a m ha)
  · intro a ha hno
    by_cases hai : a = i
    · rw [hai]
      exact alone_init
    · refine (h.alone a (ha.resolve_left hai) hno).frame (hsame _ ?_ ?_)
      · exact fun hh => hn.disjoint i a hh.symm
      · exact fun hh => hai (hn.node_inj hh)

end Rings

end Links
