import Mathlib.Data.List.Chain
import Mathlib.Data.List.Nodup
import Mathlib.Logic.Relation

/-!
# Circular doubly linked lists

`Links ν` holds the two link fields of every node.  The operations are those of a list of
nodes that carry their links themselves: a head, and the nodes on the list, linked in a
circle.  `Ring K h l` says that the nodes `l` are on the list with the head `h`, in this
order and each once.
-/

/-- The links of nodes. -/
structure Links (ν : Type) where
  next : ν → ν
  prev : ν → ν

namespace Links

variable {ν : Type}

/-! ### Rings -/

/-- The node `b` comes after `a`. -/
def Next (K : Links ν) (a b : ν) : Prop := K.next a = b ∧ K.prev b = a

/-- The nodes `l` are on the list with the head `h`. -/
structure Ring (K : Links ν) (h : ν) (l : List ν) : Prop where
  nodup : (h :: l).Nodup
  chain : (h :: l ++ [h]).IsChain K.Next

/-- The node `x` is linked to itself. -/
def Alone (K : Links ν) (x : ν) : Prop := K.next x = x ∧ K.prev x = x

instance [DecidableEq ν] (K : Links ν) (x : ν) : Decidable (K.Alone x) :=
  inferInstanceAs (Decidable (_ ∧ _))

/-- The links of `x` are the same. -/
def SameAt (K K' : Links ν) (x : ν) : Prop := K'.next x = K.next x ∧ K'.prev x = K.prev x

variable {K K' : Links ν} {h x y : ν} {l l₁ l₂ : List ν}

theorem Alone.ring (ha : K.Alone x) :
  K.Ring x []
  := by
  constructor
  · simp
  · simpa [Next] using show K.next x = x ∧ K.prev x = x from ha

theorem Ring.alone (hr : K.Ring h []) :
  K.Alone h
  := by
  have hc : K.next h = h ∧ K.prev h = h := by simpa [Next] using hr.chain
  apply hc

/-- A part of a list depends on the links inside it. -/
theorem chain_frame (hc : l.IsChain K.Next) (hn : ∀ a ∈ l.dropLast, K'.next a = K.next a)
    (hp : ∀ b ∈ l.tail, K'.prev b = K.prev b) :
  l.IsChain K'.Next
  := by
  induction l with
  | nil => apply List.isChain_nil
  | cons a l ih =>
      cases l with
      | nil => apply List.isChain_singleton
      | cons b l =>
          rw [List.isChain_cons_cons] at hc ⊢
          obtain ⟨⟨hab, hba⟩, hc⟩ := hc
          refine ⟨⟨?_, ?_⟩, ?_⟩
          · rw [hn a (by simp), hab]
          · rw [hp b (by simp), hba]
          · apply ih hc
            · intro c hcl
              apply hn
              rw [List.dropLast_cons_cons]
              apply List.mem_cons_of_mem _ hcl
            · intro c hcl
              apply hp
              exact List.mem_cons_of_mem _ hcl

/-- A list depends on the links of its nodes. -/
theorem Ring.frame (hr : K.Ring h l) (hs : ∀ y ∈ h :: l, K.SameAt K' y) :
  K'.Ring h l
  := by
  refine ⟨hr.nodup, ?_⟩
  apply chain_frame hr.chain
  · intro a ha
    apply (hs a _).1
    rw [List.dropLast_concat] at ha
    exact ha
  · intro b hb
    apply (hs b _).2
    rw [List.cons_append, List.tail_cons, List.mem_append, List.mem_singleton] at hb
    rw [List.mem_cons]
    exact hb.symm

/-- A list is a first part, a last part, and the seam between them. -/
theorem chain_seam {R : ν → ν → Prop} :
  (h :: (l₁ ++ l₂) ++ [h]).IsChain R ↔
    (h :: l₁).IsChain R ∧ (l₂ ++ [h]).IsChain R ∧ R (l₁.getLastD h) (l₂.headD h)
  := by
  have hlast : (h :: l₁).getLast? = some (l₁.getLastD h) := by
    rw [List.getLast?_cons, List.getLastD_eq_getLast?]
  have hhead : (l₂ ++ [h]).head? = some (l₂.headD h) := by
    cases l₂ with
    | nil => rfl
    | cons a l => rfl
  rw [show h :: (l₁ ++ l₂) ++ [h] = (h :: l₁) ++ (l₂ ++ [h]) by simp, List.isChain_append,
    hlast, hhead]
  simp

/-- The nodes at the seam of a list. -/
theorem Ring.seam (l₁ l₂ : List ν) (hr : K.Ring h (l₁ ++ l₂)) :
  K.Next (l₁.getLastD h) (l₂.headD h)
  := (chain_seam.mp hr.chain).2.2

theorem headD_mem : l.headD h ∈ h :: l
  := by
  cases l with
  | nil => simp
  | cons a l => simp

/-- The last node of a list without repetition is not before the last. -/
theorem getLastD_notMem (hn : (h :: l).Nodup) :
  l.getLastD h ∉ (h :: l).dropLast
  := by
  have hlast : (h :: l).dropLast ++ [l.getLastD h] = h :: l := by
    have := List.dropLast_append_getLast (l := h :: l) (by simp)
    rwa [List.getLast_eq_getLastD] at this
  rw [← hlast] at hn
  intro hmem
  have := (List.nodup_append.mp hn).2.2 _ hmem _ (List.mem_singleton_self _)
  exact this rfl

/-- The nodes on both sides of a seam, and what is apart from them. -/
theorem seam_notMem (hn : (h :: (l₁ ++ l₂)).Nodup) :
  l₁.getLastD h ∉ (h :: l₁).dropLast ∧ l₁.getLastD h ∉ l₂
    ∧ l₂.headD h ∉ l₁ ∧ l₂.headD h ∉ (l₂ ++ [h]).tail
  := by
  obtain ⟨hh, hl⟩ := List.nodup_cons.mp hn
  obtain ⟨h₁, h₂, h₁₂⟩ := List.nodup_append.mp hl
  rw [List.mem_append, not_or] at hh
  refine ⟨?_, ?_, ?_, ?_⟩
  · apply getLastD_notMem
    exact List.nodup_cons.mpr ⟨hh.1, h₁⟩
  · intro hmem
    rcases List.mem_cons.mp (List.getLastD_mem_cons (l := l₁) (a := h)) with heq | hp
    · rw [heq] at hmem
      exact hh.2 hmem
    · exact h₁₂ _ hp _ hmem rfl
  · intro hmem
    rcases List.mem_cons.mp (headD_mem (l := l₂) (h := h)) with heq | hp
    · rw [heq] at hmem
      exact hh.1 hmem
    · exact h₁₂ _ hmem _ hp rfl
  · cases l₂ with
    | nil => simp
    | cons a l =>
        rw [List.nodup_cons] at h₂
        rw [List.mem_cons, not_or] at hh
        simp only [List.headD_cons, List.cons_append, List.tail_cons, List.mem_append,
          List.mem_singleton, not_or]
        exact ⟨h₂.1, fun heq => hh.2.1 heq.symm⟩

/-- A list whose links were changed at a seam only. -/
theorem chain_splice (hnd : (h :: (l₁ ++ l₂)).Nodup) (hc₁ : (h :: l₁).IsChain K.Next)
    (hc₂ : (l₂ ++ [h]).IsChain K.Next)
    (hn : ∀ a ∈ h :: (l₁ ++ l₂), a ≠ l₁.getLastD h → K'.next a = K.next a)
    (hp : ∀ b ∈ h :: (l₁ ++ l₂), b ≠ l₂.headD h → K'.prev b = K.prev b) :
  (h :: l₁).IsChain K'.Next ∧ (l₂ ++ [h]).IsChain K'.Next
  := by
  obtain ⟨hlast₁, hlast₂, hhead₁, hhead₂⟩ := seam_notMem hnd
  constructor
  · apply chain_frame hc₁
    · intro a ha
      apply hn a
      · have := List.dropLast_subset _ ha
        simp only [List.mem_cons, List.mem_append] at this ⊢
        tauto
      · rintro rfl
        exact hlast₁ ha
    · intro b hb
      apply hp b
      · rw [List.tail_cons] at hb
        simp only [List.mem_cons, List.mem_append]
        tauto
      · rintro rfl
        exact hhead₁ hb
  · apply chain_frame hc₂
    · intro a ha
      rw [List.dropLast_concat] at ha
      apply hn a
      · simp only [List.mem_cons, List.mem_append]
        tauto
      · rintro rfl
        exact hlast₂ ha
    · intro b hb
      apply hp b
      · have := List.mem_of_mem_tail hb
        simp only [List.mem_cons, List.mem_append, List.not_mem_nil, or_false] at this ⊢
        tauto
      · rintro rfl
        exact hhead₂ hb

/-- The neighbours of the head of a list. -/
theorem Ring.neighbours_head (hr : K.Ring h l) :
  K.next h = l.headD h ∧ K.prev h = l.getLastD h
  := by
  constructor
  · exact (hr.seam [] l).1
  · refine (Ring.seam l [] ?_).2
    rw [List.append_nil]
    exact hr

/-- The neighbours of a node on a list. -/
theorem Ring.neighbours (hr : K.Ring h (l₁ ++ x :: l₂)) :
  K.prev x = l₁.getLastD h ∧ K.next x = l₂.headD h
  := by
  constructor
  · exact (hr.seam l₁ (x :: l₂)).2
  · have hseam := Ring.seam (K := K) (h := h) (l₁ ++ [x]) l₂ (by simpa using hr)
    rw [List.getLastD_concat] at hseam
    exact hseam.1

variable [DecidableEq ν]

/-! ### Operations -/

/-- Link the node `x` to itself. -/
def init (x : ν) (K : Links ν) : Links ν where
  next := Function.update K.next x x
  prev := Function.update K.prev x x

/-- Put `x` between `p` and `n`. -/
def add (x p n : ν) (K : Links ν) : Links ν where
  next := Function.update (Function.update K.next x n) p x
  prev := Function.update (Function.update K.prev n x) x p

/-- Put `x` after `h`. -/
def addAfter (x h : ν) (K : Links ν) : Links ν := K.add x h (K.next h)

/-- Put `x` before `h`. -/
def addBefore (x h : ν) (K : Links ν) : Links ν := K.add x (K.prev h) h

/-- Link `p` and `n` to each other. -/
def join (p n : ν) (K : Links ν) : Links ν where
  next := Function.update K.next p n
  prev := Function.update K.prev n p

/-- Take `x` off its list, and set both its links to `null`. -/
def unlink (null x : ν) (K : Links ν) : Links ν where
  next := Function.update (K.join (K.prev x) (K.next x)).next x null
  prev := Function.update (K.join (K.prev x) (K.next x)).prev x null

/-- Take `x` off its list, and link it to itself. -/
def unlinkInit (x : ν) (K : Links ν) : Links ν := (K.join (K.prev x) (K.next x)).init x

/-! ### Adding a node -/

/-- Putting `x` between two nodes of a list. -/
theorem Ring.add (l₁ l₂ : List ν) (hr : K.Ring h (l₁ ++ l₂)) (hx : x ∉ h :: (l₁ ++ l₂)) :
  (K.add x (l₁.getLastD h) (l₂.headD h)).Ring h (l₁ ++ x :: l₂)
  := by
  have hp : l₁.getLastD h ≠ x := by
    intro heq
    have := List.getLastD_mem_cons (l := l₁) (a := h)
    rw [heq] at this
    apply hx
    simp only [List.mem_cons, List.mem_append] at this ⊢
    tauto
  have hn : l₂.headD h ≠ x := by
    intro heq
    have := headD_mem (l := l₂) (h := h)
    rw [heq] at this
    apply hx
    simp only [List.mem_cons, List.mem_append] at this ⊢
    tauto
  have hmem : ∀ a ∈ h :: (l₁ ++ l₂), a ≠ x := by
    rintro a ha rfl
    exact hx ha
  have hsplice : (h :: l₁).IsChain (K.add x (l₁.getLastD h) (l₂.headD h)).Next
      ∧ (l₂ ++ [h]).IsChain (K.add x (l₁.getLastD h) (l₂.headD h)).Next := by
    obtain ⟨hc₁, hc₂, -⟩ := chain_seam.mp hr.chain
    apply chain_splice hr.nodup hc₁ hc₂
    · intro a ha hne
      simp only [Links.add]
      rw [Function.update_of_ne hne, Function.update_of_ne (hmem a ha)]
    · intro b hb hne
      simp only [Links.add]
      rw [Function.update_of_ne (hmem b hb), Function.update_of_ne hne]
  obtain ⟨h₁, h₂⟩ := hsplice
  constructor
  · have hnd := hr.nodup
    rw [List.nodup_cons, List.mem_append, List.nodup_append] at hnd ⊢
    simp only [List.mem_cons, List.mem_append, not_or] at hx hnd ⊢
    obtain ⟨⟨hh₁, hh₂⟩, hn₁, hn₂, hd⟩ := hnd
    refine ⟨⟨hh₁, fun heq => hx.1 heq.symm, hh₂⟩, hn₁, List.nodup_cons.mpr ⟨hx.2.2, hn₂⟩, ?_⟩
    rintro a ha b (rfl | hb)
    · rintro rfl
      exact hx.2.1 ha
    · exact hd a ha b hb
  · rw [chain_seam]
    refine ⟨h₁, ?_, ?_⟩
    · rw [List.cons_append, List.isChain_cons]
      refine ⟨?_, h₂⟩
      intro y hy
      have hy' : y = l₂.headD h := by
        cases l₂ with
        | nil => simpa using hy.symm
        | cons a l => simpa using hy.symm
      subst hy'
      constructor
      · simp only [Links.add]
        rw [Function.update_of_ne hp.symm, Function.update_self]
      · simp only [Links.add]
        rw [Function.update_of_ne hn, Function.update_self]
    · constructor
      · simp only [Links.add, List.headD_cons]
        rw [Function.update_self]
      · simp only [Links.add, List.headD_cons]
        rw [Function.update_self]

theorem Ring.addAfter (hr : K.Ring h l) (hx : x ∉ h :: l) :
  (K.addAfter x h).Ring h (x :: l)
  := by
  rw [Links.addAfter, hr.neighbours_head.1]
  exact hr.add [] l hx

theorem Ring.addBefore (hr : K.Ring h l) (hx : x ∉ h :: l) :
  (K.addBefore x h).Ring h (l ++ [x])
  := by
  rw [Links.addBefore, hr.neighbours_head.2]
  rw [← List.append_nil l] at hr hx
  exact hr.add l [] hx

/-- Nodes that are not on the list keep their links when a node is put between two of its
nodes. -/
theorem sameAt_add {p n : ν} (hp : y ≠ p) (hn : y ≠ n) (hx : y ≠ x) :
  K.SameAt (K.add x p n) y
  := by
  constructor
  · simp only [Links.add]
    rw [Function.update_of_ne hp, Function.update_of_ne hx]
  · simp only [Links.add]
    rw [Function.update_of_ne hx, Function.update_of_ne hn]

theorem Ring.sameAt_addAfter (hr : K.Ring h l) (hy : y ∉ h :: l) (hx : y ≠ x) :
  K.SameAt (K.addAfter x h) y
  := by
  rw [Links.addAfter, hr.neighbours_head.1]
  apply sameAt_add _ _ hx
  · rintro rfl
    exact hy List.mem_cons_self
  · rintro rfl
    exact hy headD_mem

/-! ### Taking a node off -/

omit [DecidableEq ν] in
/-- A node is on a list once. -/
theorem Ring.ne_of_mem (hr : K.Ring h (l₁ ++ x :: l₂)) (hy : y ∈ h :: (l₁ ++ l₂)) :
  y ≠ x
  := by
  rintro rfl
  have hnd := hr.nodup
  rw [(List.perm_middle.cons h).nodup_iff, ((List.Perm.swap y h _)).nodup_iff] at hnd
  exact (List.nodup_cons.mp hnd).1 hy

/-- A list without `x`, when the neighbours of `x` were linked and the links of `x` changed. -/
theorem Ring.remove (hr : K.Ring h (l₁ ++ x :: l₂))
    (hs : ∀ y, y ≠ x → (K.join (K.prev x) (K.next x)).SameAt K' y) :
  K'.Ring h (l₁ ++ l₂)
  := by
  obtain ⟨hprev, hnext⟩ := hr.neighbours
  rw [hprev, hnext] at hs
  obtain ⟨hc₁, hc₂, -⟩ := chain_seam.mp hr.chain
  rw [List.cons_append, List.isChain_cons] at hc₂
  have hsub : (h :: (l₁ ++ l₂)).Sublist (h :: (l₁ ++ x :: l₂)) :=
    ((List.sublist_cons_self x l₂).append_left l₁).cons_cons h
  have hnd := hr.nodup.sublist hsub
  have hx : ∀ y ∈ h :: (l₁ ++ l₂), y ≠ x := fun y => hr.ne_of_mem
  have hsplice : (h :: l₁).IsChain K'.Next ∧ (l₂ ++ [h]).IsChain K'.Next := by
    apply chain_splice hnd hc₁ hc₂.2
    · intro a ha hne
      rw [(hs a (hx a ha)).1]
      exact Function.update_of_ne hne _ _
    · intro b hb hne
      rw [(hs b (hx b hb)).2]
      exact Function.update_of_ne hne _ _
  refine ⟨hnd, chain_seam.mpr ⟨hsplice.1, hsplice.2, ?_⟩⟩
  constructor
  · rw [(hs _ _).1]
    · exact Function.update_self _ _ _
    · apply hx
      have := List.getLastD_mem_cons (l := l₁) (a := h)
      simp only [List.mem_cons, List.mem_append] at this ⊢
      tauto
  · rw [(hs _ _).2]
    · exact Function.update_self _ _ _
    · apply hx
      have := headD_mem (l := l₂) (h := h)
      simp only [List.mem_cons, List.mem_append] at this ⊢
      tauto

theorem Ring.unlinkInit (hr : K.Ring h (l₁ ++ x :: l₂)) :
  (K.unlinkInit x).Ring h (l₁ ++ l₂)
  := by
  apply hr.remove
  intro y hy
  constructor
  · exact Function.update_of_ne hy _ _
  · exact Function.update_of_ne hy _ _

theorem Ring.unlink (null : ν) (hr : K.Ring h (l₁ ++ x :: l₂)) :
  (K.unlink null x).Ring h (l₁ ++ l₂)
  := by
  apply hr.remove
  intro y hy
  constructor
  · exact Function.update_of_ne hy _ _
  · exact Function.update_of_ne hy _ _

/-- Nodes that are not on the list keep their links when a node is taken off. -/
theorem Ring.sameAt_unlinkInit (hr : K.Ring h (l₁ ++ x :: l₂)) (hy : y ∉ h :: (l₁ ++ x :: l₂)) :
  K.SameAt (K.unlinkInit x) y
  := by
  obtain ⟨hprev, hnext⟩ := hr.neighbours
  have hx : y ≠ x := by
    rintro rfl
    simp at hy
  have hp : y ≠ l₁.getLastD h := by
    rintro rfl
    have := List.getLastD_mem_cons (l := l₁) (a := h)
    simp only [List.mem_cons, List.mem_append] at this hy
    tauto
  have hn : y ≠ l₂.headD h := by
    rintro rfl
    have := headD_mem (l := l₂) (h := h)
    simp only [List.mem_cons, List.mem_append] at this hy
    tauto
  rw [Links.unlinkInit, hprev, hnext]
  constructor
  · exact (Function.update_of_ne hx _ _).trans (Function.update_of_ne hp _ _)
  · exact (Function.update_of_ne hx _ _).trans (Function.update_of_ne hn _ _)

/-! ### Nodes that are linked to themselves -/

theorem alone_init :
  (K.init x).Alone x
  := ⟨Function.update_self _ _ _, Function.update_self _ _ _⟩

theorem sameAt_init (hy : y ≠ x) :
  K.SameAt (K.init x) y
  := ⟨Function.update_of_ne hy _ _, Function.update_of_ne hy _ _⟩

theorem alone_unlinkInit :
  (K.unlinkInit x).Alone x
  := alone_init

/-- To link a node to itself that is so already changes nothing. -/
theorem Alone.init (ha : K.Alone x) :
  K.init x = K
  := by
  obtain ⟨hn, hp⟩ := ha
  cases K with
  | mk next prev =>
      simp only [Links.init, Links.mk.injEq]
      constructor
      · rw [Function.update_eq_self_iff]
        exact hn.symm
      · rw [Function.update_eq_self_iff]
        exact hp.symm

/-- To take a node off that is on no list changes nothing. -/
theorem Alone.unlinkInit (ha : K.Alone x) :
  K.unlinkInit x = K
  := by
  obtain ⟨hn, hp⟩ := ha
  have hjoin : K.join (K.prev x) (K.next x) = K := by
    rw [hn, hp]
    exact Alone.init ⟨hn, hp⟩
  rw [Links.unlinkInit, hjoin]
  exact Alone.init ⟨hn, hp⟩

/-! ### Following the links -/

/-- The nodes that are found from `x` on, until the head `h` or the bound `n` is reached. -/
def follow (K : Links ν) (h : ν) : Nat → ν → List ν
  | 0, _ => []
  | n + 1, x => if x = h then [] else x :: K.follow h n (K.next x)

/-- The nodes that are found on the list with the head `h`, at most `n` of them. -/
def members (K : Links ν) (n : Nat) (h : ν) : List ν := K.follow h n (K.next h)

theorem follow_chain {n : Nat} (hc : (l ++ [h]).IsChain K.Next) (hh : h ∉ l)
    (hn : l.length ≤ n) :
  K.follow h n (l.headD h) = l
  := by
  induction l generalizing n with
  | nil =>
      cases n with
      | zero => rfl
      | succ n => simp [follow]
  | cons a l ih =>
      cases n with
      | zero => simp at hn
      | succ n =>
          rw [List.mem_cons, not_or] at hh
          rw [List.cons_append, List.isChain_cons] at hc
          have hnext : K.next a = l.headD h := by
            apply (hc.1 _ _).1
            cases l with
            | nil => rfl
            | cons b l => rfl
          rw [List.headD_cons, follow, if_neg (Ne.symm hh.1), hnext, ih hc.2 hh.2]
          simpa using hn

/-- The nodes that are found on a list are those that are on it. -/
theorem Ring.members {n : Nat} (hr : K.Ring h l) (hn : l.length ≤ n) :
  K.members n h = l
  := by
  have hc := hr.chain
  rw [List.cons_append, List.isChain_cons] at hc
  rw [Links.members, hr.neighbours_head.1]
  exact follow_chain hc.2 (List.nodup_cons.mp hr.nodup).1 hn

/-- The links tell which nodes are on a list. -/
theorem Ring.unique (hr : K.Ring h l₁) (hr' : K.Ring h l₂) :
  l₁ = l₂
  := (hr.members (Nat.le_max_left _ _)).symm.trans (hr'.members (Nat.le_max_right _ _))

/-- The node `x` is found when the links are followed from `h`. -/
def Reaches (K : Links ν) : ν → ν → Prop := Relation.ReflTransGen fun a b => K.next a = b

/-- To take off a node of a set that the links do not lead out of leaves the set so. -/
theorem closed_unlinkInit {S : ν → Prop} (hS : ∀ a, S a → S (K.next a)) (hx : S x) :
  ∀ a, S a → S ((K.unlinkInit x).next a)
  := by
  intro a ha
  simp only [Links.unlinkInit, Links.init, Links.join]
  by_cases hax : a = x
  · rw [hax, Function.update_self]
    exact hx
  · rw [Function.update_of_ne hax]
    by_cases hap : a = K.prev x
    · rw [hap, Function.update_self]
      exact hS x hx
    · rw [Function.update_of_ne hap]
      exact hS a ha

end Links
