import Manos.Dev.Children
import Manos.Dev.Crumbs

/-!
# Enumerating the children of a directory

`WalkDown` and then `WalkNext` until there is no more, from a directory of a namespace whose lines
follow the documented rules.  The crumbs of the entries keep twelve bits of the index of the parent,
and no entry is the sentinel that `WalkDown` looks for; the enumeration is right where neither of
the two matters.
-/

namespace Dev

open Exec

variable {σ : Type} {rows : List Row} {T : List StaticNS} {e f : StaticNS} {i j n s : ℕ}
  {p px : Portal} {x : σ}

/-! ### Documented namespaces -/

/--
The lines of a namespace that follow the rules: no more than the indices allow, the root first,
parents before their children, and breadth first order.
-/
structure Documented (rows : List Row) : Prop where
  pos : 0 < rows.length
  short : rows.length ≤ 0xffff
  root : rows[0].parent = staticNSSentinel
  parent : ∀ i (h : i < rows.length), 0 < i → rows[i].parent < i
  sorted : rows.tail.Pairwise fun r r' => r.parent ≤ r'.parent

/-- The parent in the line `j`, or in the sentinel behind the lines. -/
def parentAt (rows : List Row) (j : ℕ) : ℕ := rows[j]?.elim staticNSSentinel (·.parent)

/-- The entries of the lines with the parent `s`. -/
def childrenOf (rows : List Row) (s : ℕ) : List StaticNS :=
  ((rows.zip (namespaceMap rows)).filter fun x => x.1.parent = s).map (·.2)

/-- What the table has for a line and for the sentinel: no entry is taken for the sentinel. -/
theorem getElem?_table (h : rows.length ≤ 0xffff) (hj : j ≤ rows.length) :
  ∃ e, (namespaceMap rows ++ [sentinel])[j]? = some e ∧
    e.crumb.parentIdx = parentAt rows j % 0x1000 ∧ e.crumb.isSentinel = false ∧
    e.crumb.isStatic ∧ (j < rows.length → e.crumb.selfIdx = j)
  := by
  have hlen : (namespaceMap rows).length = rows.length := List.length_mapIdx
  by_cases hlt : j < rows.length
  · refine ⟨⟨text rows[j].name, mkStaticNSCrumb rows[j].parent j rows[j].flags, rows[j].length,
      rows[j].mode, rows[j].contents.elim .null fun s => .text (text s)⟩, ?_, ?_, ?_,
      isStatic_mkStaticNSCrumb _ _ _, fun _ => ?_⟩
    · rw [List.getElem?_append_left (hlen.symm ▸ hlt), namespaceMap, List.getElem?_mapIdx,
        List.getElem?_eq_getElem hlt]
      rfl
    · rw [parentAt, List.getElem?_eq_getElem hlt]
      apply parentIdx_mkStaticNSCrumb
    · refine Bool.eq_false_iff.mpr fun hs => ?_
      have hself := selfIdx_of_isSentinel hs
      rw [selfIdx_mkStaticNSCrumb] at hself
      omega
    · rw [selfIdx_mkStaticNSCrumb]
      omega
  · obtain rfl : j = rows.length := by omega
    refine ⟨sentinel, ?_, ?_, rfl, rfl, fun hlt' => absurd hlt' hlt⟩
    · rw [List.getElem?_append_right (Nat.le_of_eq hlen), hlen, Nat.sub_self]
      rfl
    · rw [parentAt, List.getElem?_eq_none (Nat.le_refl _)]
      rfl

theorem mem_table (h : rows.length ≤ 0xffff) (he : e ∈ namespaceMap rows ++ [sentinel]) :
  ∃ j, e.crumb.parentIdx = parentAt rows j % 0x1000 ∧ e.crumb.isSentinel = false
  := by
  obtain ⟨j, hj, rfl⟩ := List.getElem_of_mem he
  have hle : j ≤ rows.length := by
    rw [List.length_append, List.length_singleton, namespaceMap, List.length_mapIdx] at hj
    omega
  obtain ⟨x, hx, hparent, hs, -⟩ := getElem?_table h hle
  rw [List.getElem?_eq_getElem hj, Option.some.injEq] at hx
  rw [hx]
  exact ⟨j, hparent, hs⟩

/-- The lines with the parent `s` stand together, and the ones before have smaller parents. -/
theorem Documented.block (h : Documented rows) (hs : s < rows.length) :
  ∃ n, (∀ k (hk : k < (childrenOf rows s).length), n + k < rows.length ∧ parentAt rows (n + k) = s ∧
      (namespaceMap rows ++ [sentinel])[n + k]? = some (childrenOf rows s)[k]) ∧
    (∀ j < n, parentAt rows j ≠ s) ∧ n + (childrenOf rows s).length ≤ rows.length ∧
    parentAt rows (n + (childrenOf rows s).length) ≠ s
  := by
  have hroot := h.root
  have hshort := h.short
  have hlen : (namespaceMap rows).length = rows.length := List.length_mapIdx
  have hcontiguous : (rows.zip (namespaceMap rows)).Contiguous fun x => x.1.parent = s := by
    intro i j k hij hjk hk hi hk'
    have hkl : k < rows.length := by
      rw [List.length_zip] at hk
      omega
    simp only [List.getElem_zip, decide_eq_true_eq] at hi hk' ⊢
    by_cases h0 : i = 0
    · subst h0
      rw [hroot, staticNSSentinel] at hi
      omega
    · have h₁ := List.rel_of_pairwise_tail h.sorted (Nat.pos_of_ne_zero h0) hij (hjk.trans hkl)
      have h₂ := List.rel_of_pairwise_tail h.sorted (Nat.zero_lt_of_lt hij) hjk hkl
      omega
  obtain ⟨pre, post, hzip, hpre, hpost⟩ := hcontiguous.cut
  generalize hZ : (rows.zip (namespaceMap rows)).filter (fun x => x.1.parent = s) = Z at hzip
  have hcs : childrenOf rows s = Z.map (·.2) := congrArg (List.map Prod.snd) hZ
  have hrows : rows = (pre ++ Z ++ post).map (·.1) := by
    rw [← hzip, List.map_fst_zip (Nat.le_of_eq hlen.symm)]
  have htable : namespaceMap rows = (pre ++ Z ++ post).map (·.2) := by
    rw [← hzip, List.map_snd_zip (Nat.le_of_eq hlen)]
  have hlens : rows.length = pre.length + Z.length + post.length := by
    have := congrArg List.length hrows
    rwa [List.length_map, List.length_append, List.length_append] at this
  have hparent (j : ℕ) :
      parentAt rows j = (pre ++ Z ++ post)[j]?.elim staticNSSentinel (·.1.parent) := by
    conv_lhs => rw [parentAt, hrows, List.getElem?_map]
    cases (pre ++ Z ++ post)[j]? with
    | none => rfl
    | some x => rfl
  have hZlen : (childrenOf rows s).length = Z.length := by rw [hcs, List.length_map]
  refine ⟨pre.length, ?_, ?_, ?_, ?_⟩
  · intro k hk
    have hkZ : k < Z.length := hZlen ▸ hk
    have hget : (pre ++ Z ++ post)[pre.length + k]? = some Z[k] := by
      rw [List.append_assoc, List.getElem?_append_right (Nat.le_add_right _ _),
        Nat.add_sub_cancel_left, List.getElem?_append_left hkZ, List.getElem?_eq_getElem hkZ]
    refine ⟨by omega, ?_, ?_⟩
    · rw [hparent, hget]
      have hmem : Z[k] ∈ (rows.zip (namespaceMap rows)).filter fun x => x.1.parent = s :=
        hZ ▸ List.getElem_mem hkZ
      exact of_decide_eq_true (List.mem_filter.mp hmem).2
    · rw [List.getElem?_append_left (by omega), htable, List.getElem?_map, hget]
      simp only [hcs, List.getElem_map, Option.map_some]
  · intro j hj
    rw [hparent, List.append_assoc, List.getElem?_append_left hj, List.getElem?_eq_getElem hj]
    exact of_decide_eq_false (hpre _ (List.getElem_mem hj))
  · omega
  · rw [hZlen, hparent, List.append_assoc, List.getElem?_append_right (Nat.le_add_right _ _),
      Nat.add_sub_cancel_left, List.getElem?_append_right (Nat.le_refl _), Nat.sub_self]
    cases post with
    | nil =>
        change staticNSSentinel ≠ s
        rw [staticNSSentinel]
        omega
    | cons x post => exact of_decide_eq_false (hpost x List.mem_cons_self)

theorem parentAt_of_lt (hj : j < rows.length) :
  parentAt rows j = rows[j].parent
  := by
  rw [parentAt, List.getElem?_eq_getElem hj]
  rfl

/-- Behind the root the parents do not decrease. -/
theorem Documented.parentAt_le (h : Documented rows) (hi : 0 < i) (hij : i ≤ j)
    (hj : j < rows.length) :
  parentAt rows i ≤ parentAt rows j
  := by
  rcases Nat.eq_or_lt_of_le hij with rfl | hlt
  · apply Nat.le_refl
  · rw [parentAt_of_lt hj, parentAt_of_lt (hlt.trans hj)]
    exact List.rel_of_pairwise_tail h.sorted hi hlt hj

/-- A line with the parent `s`, as the root is none. -/
theorem Documented.child_pos (h : Documented rows) (hs : s < rows.length)
    (hi : parentAt rows i = s) :
  0 < i ∧ i < rows.length
  := by
  have hshort := h.short
  constructor
  · by_contra h0
    obtain rfl : i = 0 := by omega
    have hroot := (parentAt_of_lt h.pos).trans h.root
    rw [staticNSSentinel] at hroot
    omega
  · by_contra hge
    rw [parentAt, List.getElem?_eq_none (by omega)] at hi
    change staticNSSentinel = s at hi
    rw [staticNSSentinel] at hi
    omega

/-- No line with the parent `s` comes behind a last one. -/
theorem Documented.le_last (h : Documented rows) (hs : s < rows.length) (hi : parentAt rows i = s)
    (hi' : parentAt rows (i + 1) ≠ s) (hj : parentAt rows j = s) :
  j ≤ i
  := by
  by_contra hlt
  have hpos := (h.child_pos hs hi).1
  have hlen := (h.child_pos hs hj).2
  have h₁ := h.parentAt_le hpos (Nat.le_add_right i 1) (by omega)
  have h₂ := h.parentAt_le (i := i + 1) (Nat.zero_lt_succ i) (by omega) hlen
  omega

/-! ### Enumeration -/

/-- `WalkNext` until there is no more, from what was found last. -/
def siblingsLoop (T : List StaticNS) : ℕ → Portal → Option NodeInfo → Exec σ (List NodeInfo)
  | _, _, none => pure []
  | 0, _, some _ => fault .endless
  | k + 1, px, some ni => do
      let px := { px with crumb := ni.crumb }
      let nix ← getNodeInfoStaticNS px T .next
      let nis ← siblingsLoop T k px nix
      return ni :: nis

/-- `WalkDown` from a directory, and then `WalkNext` until there is no more. -/
def enumerate (T : List StaticNS) (p : Portal) : Exec σ (List NodeInfo) := do
  let nix ← getNodeInfoStaticNS p T .down
  siblingsLoop T entryBound p nix

theorem siblingsLoop_eq {a : ℕ} {cs : List StaticNS} (h : Siblings T a n cs) {k : ℕ}
    (hk : cs.length ≤ k) (px : Portal) (x : σ) :
  siblingsLoop T k px (cs.head?.map (mkNodeInfo px)) x = .done (cs.map (mkNodeInfo px)) x
  := by
  induction cs generalizing n k px with
  | nil =>
      cases k with
      | zero => rfl
      | succ k => rfl
  | cons e cs ih =>
      obtain ⟨k, rfl⟩ := Nat.exists_eq_succ_of_ne_zero (Nat.ne_zero_of_lt hk)
      have hnext := info_next (p := { px with crumb := e.crumb }) h rfl x
      have hrest := ih h.tail (Nat.le_of_succ_le_succ hk) { px with crumb := e.crumb }
      rw [List.head?_cons, Option.map_some, siblingsLoop]
      apply (bind_done hnext).trans
      apply (bind_done hrest).trans
      rfl

/-- What was found last is enumerated. -/
theorem siblingsLoop_some {k : ℕ} {ni : NodeInfo} {nis : List NodeInfo} {y : σ}
    (h : siblingsLoop T k px (some ni) x = .done nis y) :
  1 ≤ nis.length
  := by
  cases k with
  | zero => cases h
  | succ k =>
      rw [siblingsLoop] at h
      obtain ⟨nix, x', -, h⟩ := bind_eq_done_iff.mp h
      obtain ⟨nis', x'', -, h⟩ := bind_eq_done_iff.mp h
      cases h
      apply Nat.succ_le_succ (Nat.zero_le _)

/-- Where one more entry has the parent, it is enumerated too. -/
theorem siblingsLoop_more {a : ℕ} {cs : List StaticNS} (h : Adjacent T a n cs) (hcs : cs ≠ [])
    (hf : T[n + cs.length]? = some f) (hparent : f.crumb.parentIdx = a) {k : ℕ}
    {nis : List NodeInfo} {y : σ}
    (hrun : siblingsLoop T k px (cs.head?.map (mkNodeInfo px)) x = .done nis y) :
  cs.length + 1 ≤ nis.length
  := by
  induction cs generalizing n k px nis y with
  | nil => contradiction
  | cons e cs ih =>
      cases k with
      | zero => cases hrun
      | succ k =>
          have hstatic := h.static e List.mem_cons_self
          have hpe := h.parent e List.mem_cons_self
          rw [List.head?_cons, Option.map_some, siblingsLoop] at hrun
          cases cs with
          | nil =>
              have hnext := info_behind (p := { px with crumb := e.crumb }) rfl hstatic h.head.2
                hf x
              rw [if_neg (by rw [hpe, hparent]; simp)] at hnext
              obtain ⟨nis', y', hrest, hret⟩ :=
                bind_eq_done_iff.mp ((bind_done hnext).symm.trans hrun)
              cases hret
              exact Nat.succ_le_succ (siblingsLoop_some hrest)
          | cons g cs =>
              have hg := h.parent g (by simp)
              have hnext := info_behind (p := { px with crumb := e.crumb }) rfl hstatic h.head.2
                h.tail.head.1 x
              rw [if_neg (by rw [hpe, hg]; simp)] at hnext
              obtain ⟨nis', y', hrest, hret⟩ :=
                bind_eq_done_iff.mp ((bind_done hnext).symm.trans hrun)
              cases hret
              have hf' : T[n + 1 + (g :: cs).length]? = some f := by
                rw [← hf, List.length_cons, List.length_cons, List.length_cons]
                congr 1
                omega
              exact Nat.succ_le_succ (ih h.tail (List.cons_ne_nil g cs) hf' hrest)

/-! ### Tables without the sentinel -/

/-- The scan of `WalkDown` does not end without an entry where none is taken for the sentinel. -/
theorem firstChild_ne_none (h : ∀ e ∈ T, e.crumb.isSentinel = false) (a : ℕ) (y : σ) :
  firstChild a T x ≠ .done none y
  := by
  induction T with
  | nil => nofun
  | cons e T ih =>
      rw [firstChild, h e List.mem_cons_self, if_neg Bool.false_ne_true]
      split
      · rintro ⟨⟩
      · exact ih fun e he => h e (List.mem_cons_of_mem _ he)

/-- Where no entry has the parent, the scan leaves the table. -/
theorem firstChild_stops {a : ℕ} (h : ∀ e ∈ T, e.crumb.isSentinel = false)
    (ha : ∀ e ∈ T, e.crumb.parentIdx ≠ a) (x : σ) :
  firstChild a T x = .stop (.wild "ns") x
  := by
  induction T with
  | nil => rfl
  | cons e T ih =>
      rw [firstChild, if_neg (ha e List.mem_cons_self), h e List.mem_cons_self,
        if_neg Bool.false_ne_true]
      exact ih (fun e he => h e (List.mem_cons_of_mem _ he))
        (fun e he => ha e (List.mem_cons_of_mem _ he))

/-- An enumeration that returns has found an entry by `WalkDown`. -/
theorem enumerate_done {nis : List NodeInfo} {y : σ} (hp : p.crumb.isStatic) (hdir : p.crumb.isDir)
    (h : ∀ e ∈ T, e.crumb.isSentinel = false) (hrun : enumerate T p x = .done nis y) :
  ∃ e y', firstChild p.crumb.selfIdx (T.drop p.crumb.selfIdx) x = .done (some e) y' ∧
    siblingsLoop T entryBound p (some (mkNodeInfo p e)) y' = .done nis y
  := by
  obtain ⟨nix, y', hdown, hloop⟩ := bind_eq_done_iff.mp hrun
  rw [getNodeInfoStaticNS, bind_done (assert_pos hp _ x), hdir] at hdown
  simp only [Bool.not_true, Bool.false_eq_true, if_false] at hdown
  obtain ⟨first, y'', hfirst, hret⟩ := bind_eq_done_iff.mp hdown
  cases hret
  cases first with
  | none => exact absurd hfirst (firstChild_ne_none (fun e he => h e (List.mem_of_mem_drop he)) _ _)
  | some e => exact ⟨e, y', hfirst, hloop⟩

/-! ### Children -/

section

variable (h : Documented rows) (hs : s < rows.length) (hp : p.crumb.selfIdx = s)
  (hstatic : p.crumb.isStatic) (hdir : p.crumb.isDir)
include h hs hp hstatic hdir

/-- What `WalkDown` needs, and what it finds: the children of a directory with a small index. -/
theorem Documented.down (hsmall : s < 0x1000) (hne : childrenOf rows s ≠ []) :
  ∃ n, Adjacent (namespaceMap rows ++ [sentinel]) s n (childrenOf rows s) ∧
    n + (childrenOf rows s).length ≤ rows.length ∧
    parentAt rows (n + (childrenOf rows s).length - 1) = s ∧
    parentAt rows (n + (childrenOf rows s).length) ≠ s ∧
    ∀ x : σ, getNodeInfoStaticNS p (namespaceMap rows ++ [sentinel]) .down x =
      .done ((childrenOf rows s).head?.map (mkNodeInfo p)) x
  := by
  obtain ⟨n, hblock, hbefore, hle, hafter⟩ := h.block hs
  have hshort := h.short
  have hentries : ∀ k (hk : k < (childrenOf rows s).length),
      (childrenOf rows s)[k].crumb.parentIdx = s ∧ (childrenOf rows s)[k].crumb.isStatic ∧
        (childrenOf rows s)[k].crumb.selfIdx = n + k := by
    intro k hk
    obtain ⟨hlt, hparent, hget⟩ := hblock k hk
    obtain ⟨e, he, hpe, -, hst, hse⟩ := getElem?_table hshort (Nat.le_of_lt hlt)
    rw [hget, Option.some.injEq] at he
    rw [he, hpe, hparent, Nat.mod_eq_of_lt hsmall]
    exact ⟨rfl, hst, hse hlt⟩
  have hadjacent : Adjacent (namespaceMap rows ++ [sentinel]) s n (childrenOf rows s) := by
    refine ⟨fun k hk => (hblock k hk).2.2, fun k hk => (hentries k hk).2.2, ?_, ?_⟩
    · intro e he
      obtain ⟨k, hk, rfl⟩ := List.getElem_of_mem he
      exact (hentries k hk).2.1
    · intro e he
      obtain ⟨k, hk, rfl⟩ := List.getElem_of_mem he
      exact (hentries k hk).1
  have hpos : 0 < (childrenOf rows s).length := List.length_pos_iff.mpr hne
  have hnparent := (hblock 0 hpos).2.1
  rw [Nat.add_zero] at hnparent
  obtain ⟨hn0, hn⟩ := h.child_pos hs hnparent
  have hroot : parentAt rows 0 = 0xffff := (parentAt_of_lt h.pos).trans h.root
  have hsn : s < n := by
    have := h.parent n hn hn0
    rw [parentAt_of_lt hn] at hnparent
    omega
  refine ⟨n, hadjacent, hle, ?_, hafter, fun x => ?_⟩
  · have hlast := (hblock ((childrenOf rows s).length - 1) (by omega)).2.1
    rwa [← Nat.add_sub_assoc hpos] at hlast
  obtain ⟨e, cs, hcs⟩ := List.exists_cons_of_ne_nil hne
  rw [hcs] at hadjacent ⊢
  refine info_down hadjacent.head.1 (hadjacent.parent e List.mem_cons_self) hstatic hp hdir
    (Nat.le_of_lt hsn) (fun j hsj hjn => ?_) x
  -- the entries before the first child have smaller parents, or are the root
  obtain ⟨y, hy, hpy, hsentinel, -, -⟩ := getElem?_table hshort (Nat.le_of_lt (hjn.trans hn))
  refine ⟨y, hy, ?_, hsentinel⟩
  rw [hpy]
  have hne' := hbefore j hjn
  by_cases hj0 : j = 0
  · subst hj0
    rw [hroot]
    omega
  · have hsorted := h.parentAt_le (Nat.pos_of_ne_zero hj0) (Nat.le_of_lt hjn) hn
    rw [Nat.mod_eq_of_lt (by omega)]
    exact hne'

end

/--
The enumeration of a directory gives its children, each once and in their order, exactly when it has
a child, its index has twelve bits, and the entry behind its last child does not have a parent whose
last twelve bits are that index.
-/
theorem enumerate_children_iff (h : Documented rows) (hs : s < rows.length)
    (hp : (namespaceMap rows)[s]?.map (·.crumb) = some p.crumb) (hdir : p.crumb.isDir) (x : σ) :
  enumerate (namespaceMap rows ++ [sentinel]) p x =
      .done ((childrenOf rows s).map (mkNodeInfo p)) x ↔
    s < 0x1000 ∧ childrenOf rows s ≠ [] ∧
      ∀ i, parentAt rows i = s → parentAt rows (i + 1) ≠ s → parentAt rows (i + 1) % 0x1000 ≠ s
  := by
  have hshort := h.short
  obtain ⟨e, he, -, -, hst, hself⟩ := getElem?_table hshort (Nat.le_of_lt hs)
  have hlen : (namespaceMap rows).length = rows.length := List.length_mapIdx
  rw [List.getElem?_append_left (hlen.symm ▸ hs)] at he
  rw [he, Option.map_some, Option.some.injEq] at hp
  have hself' : p.crumb.selfIdx = s := hp ▸ hself hs
  have hstatic : p.crumb.isStatic := hp ▸ hst
  have hsentinel : ∀ e ∈ namespaceMap rows ++ [sentinel], e.crumb.isSentinel = false :=
    fun e he => (mem_table hshort he).choose_spec.2
  constructor
  · intro hrun
    obtain ⟨c, y, hfirst, hloop⟩ := enumerate_done hstatic hdir hsentinel hrun
    rw [hself'] at hfirst
    have hsmall : s < 0x1000 := by
      by_contra hlarge
      rw [firstChild_stops (fun e he => hsentinel e (List.mem_of_mem_drop he))] at hfirst
      · cases hfirst
      · intro e he
        obtain ⟨j, hj, -⟩ := mem_table hshort (List.mem_of_mem_drop he)
        omega
    have hne : childrenOf rows s ≠ [] := by
      intro hnil
      have hlen' := siblingsLoop_some hloop
      rw [hnil] at hlen'
      contradiction
    refine ⟨hsmall, hne, fun i hi hi' hmod => ?_⟩
    obtain ⟨n, hadjacent, hle, hlast, hafter, hdown⟩ :=
      h.down hs hself' hstatic hdir hsmall hne (σ := σ)
    have hpos : 0 < (childrenOf rows s).length := List.length_pos_iff.mpr hne
    have hsucc : n + (childrenOf rows s).length - 1 + 1 = n + (childrenOf rows s).length := by omega
    have hmore : n + (childrenOf rows s).length = i + 1 := by
      have h₁ := h.le_last hs hlast (by rwa [hsucc]) hi
      have h₂ := h.le_last hs hi hi' hlast
      omega
    obtain ⟨f, hf, hpf, -⟩ := getElem?_table hshort hle
    rw [hmore, hmod] at hpf
    have hrest := (bind_done (hdown x)).symm.trans hrun
    have hlen' := siblingsLoop_more hadjacent hne hf hpf hrest
    rw [List.length_map] at hlen'
    omega
  · rintro ⟨hsmall, hne, hmod⟩
    obtain ⟨n, hadjacent, hle, hlast, hafter, hdown⟩ :=
      h.down hs hself' hstatic hdir hsmall hne (σ := σ)
    obtain ⟨f, hf, hpf, -⟩ := getElem?_table hshort hle
    have hpos : 0 < (childrenOf rows s).length := List.length_pos_iff.mpr hne
    have hsucc : n + (childrenOf rows s).length - 1 + 1 = n + (childrenOf rows s).length := by omega
    have hmod' := hmod _ hlast (by rwa [hsucc])
    rw [hsucc, ← hpf] at hmod'
    have hsiblings : Siblings (namespaceMap rows ++ [sentinel]) s n (childrenOf rows s) :=
      ⟨hadjacent, f, hf, hmod'⟩
    exact (bind_done (hdown x)).trans (siblingsLoop_eq hsiblings hadjacent.length_le p x)

/-- A root with a directory, in which there is one file. -/
def binRows : List Row := [
  ⟨".", staticNSSentinel, crumbIsDir, 0, 0o555, none⟩,
  ⟨"bin", 0, crumbIsDir, 0, 0o555, none⟩,
  ⟨"ls", 1, crumbIsFile, 4, 0o555, "#!ls"⟩]

/-- The directory `bin` is enumerated. -/
theorem enumerate_children_iff_bin :
  ∃ p : Portal, enumerate (namespaceMap binRows ++ [sentinel]) p () =
    .done ((childrenOf binRows 1).map (mkNodeInfo p)) () ∧
    (childrenOf binRows 1).map (·.name) = [text "ls"]
  := by
  have hdocumented : Documented binRows := ⟨by decide, by decide, rfl, by decide, by decide⟩
  refine ⟨{ mkPortal 0 with crumb := mkStaticNSCrumb 0 1 crumbIsDir }, ?_, by decide⟩
  refine (enumerate_children_iff hdocumented (s := 1) (by decide) rfl (by decide) ()).mpr
    ⟨by decide, by decide, fun i hi hi' => ?_⟩
  obtain ⟨hpos, hlt⟩ := hdocumented.child_pos (by decide) hi
  have hcases : i = 1 ∨ i = 2 := by
    simp only [binRows, List.length_cons, List.length_nil] at hlt
    omega
  rcases hcases with rfl | rfl
  · contradiction
  · decide

/-- A root with an empty directory. -/
def tmpRows : List Row := [
  ⟨".", staticNSSentinel, crumbIsDir, 0, 0o555, none⟩,
  ⟨"tmp", 0, crumbIsDir, 0, 0o555, none⟩]

/-- In a namespace with an empty directory `WalkDown` does not stop at the sentinel. -/
theorem enumerate_empty_overruns :
  ¬ ∀ (rows : List Row) (s : ℕ) (p : Portal), Documented rows → s < rows.length →
    (namespaceMap rows)[s]?.map (·.crumb) = some p.crumb → p.crumb.isDir →
    enumerate (namespaceMap rows ++ [sentinel]) p () =
      .done ((childrenOf rows s).map (mkNodeInfo p)) ()
  := by
  intro hall
  have hdocumented : Documented tmpRows := ⟨by decide, by decide, rfl, by decide, by decide⟩
  have hrun := hall tmpRows 1 { mkPortal 0 with
    crumb := mkStaticNSCrumb 0 1 crumbIsDir } hdocumented
    (by decide) rfl (by decide)
  have hstops : enumerate (namespaceMap tmpRows ++ [sentinel])
      { mkPortal 0 with crumb := mkStaticNSCrumb 0 1 crumbIsDir } () = .stop (.wild "ns") () := rfl
  rw [hstops] at hrun
  cases hrun

end Dev
